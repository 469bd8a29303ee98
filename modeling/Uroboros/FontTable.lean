import Uroboros.Graphic
import Uroboros.Makefont

/-!
# From the font file to the screen

The rows that the font converter has written with `+=` are the rows that
`put_font_asc` draws bit by bit. The table has no room for the last of 256 blocks,
and `print_asc` takes its index from a signed character.
-/

set_option autoImplicit false

namespace Uroboros.FontTable

open ByteMemory ForLoop Stdlibc Graphic Makefont

/-- The characters of a text glyph that are to be seen. -/
def glyph (rows : List (List U8)) (i j : Nat) : Bool := (rows.getD i []).getD j 0 = 0x2a

variable {m : Mem} {vram x y : U32} {color b : U8} {rows : List (List U8)} {font : FontFile}
  {hankaku text : List U8} {s : CStr} {i fuel : Nat} {out : Table}

theorem rowBit_add {n j : Nat} (hn : n < width) (hj : j < width) {line : U8}
    (hclear : rowBit line n = false) :
    rowBit (line + (1 : U8) <<< (width - n - 1)) j = (rowBit line j || decide (j = n)) := by
  have hwidth : width = 8 := rfl
  have hexp : width - n - 1 = 7 - n := by omega
  have hpow : (1 : U8) <<< (width - n - 1) = BitVec.twoPow 8 (7 - n) := by
    rw [hexp]
    rfl
  have hand : line &&& BitVec.twoPow 8 (7 - n) = 0#8 := by
    rw [BitVec.and_twoPow]
    exact if_neg (Bool.eq_false_iff.mp hclear)
  have hbit : (decide (7 - n < 8) && decide (7 - n = 7 - j)) = decide (j = n) := by
    rw [decide_eq_true (by omega), Bool.true_and]
    exact decide_eq_decide.mpr (by omega)
  rw [hpow, BitVec.add_eq_or_of_and_eq_zero _ _ hand, rowBit, BitVec.getLsbD_or,
    BitVec.getLsbD_twoPow, hbit]
  rfl

/-- The converter and the kernel agree on the order of the bits. -/
theorem rowBit_convertRow (l : List U8) {j : Nat} (hj : j < width) :
    rowBit (convertRow l 0) j = decide (l.getD j 0 = 0x2a) := by
  have hloop : ∀ j < width, rowBit (convertRow l 0) j =
      (decide (j < width) && decide (l.getD j 0 = 0x2a)) := by
    refine forLoop_invariant (fun n line => ∀ j < width,
      rowBit line j = (decide (j < n) && decide (l.getD j 0 = 0x2a))) ?_ ?_
    · intro j _
      rw [decide_eq_false (Nat.not_lt_zero j), Bool.false_and, rowBit]
      exact BitVec.getLsbD_zero
    · intro n line hn hbits j hj
      have hclear : rowBit line n = false := by
        rw [hbits n hn, decide_eq_false (Nat.lt_irrefl n), Bool.false_and]
      have hzero : line + (0 : U8) <<< (width - n - 1) = line :=
        (congrArg (line + ·) (BitVec.zero_shiftLeft _)).trans (BitVec.add_zero line)
      have hlt : j ≠ n → decide (j < n + 1) = decide (j < n) := fun h =>
        decide_eq_decide.mpr (by omega)
      dsimp only
      split_ifs with hstar
      · rw [rowBit_add hn hj hclear, hbits j hj]
        by_cases heq : j = n
        · rw [heq, decide_eq_true hstar, decide_eq_true (Nat.lt_succ_self n), decide_eq_true rfl,
            Bool.or_true]
          rfl
        · rw [hlt heq, decide_eq_false heq, Bool.or_false]
      · rw [hzero, hbits j hj]
        by_cases heq : j = n
        · rw [heq, decide_eq_false hstar, Bool.and_false, Bool.and_false]
        · rw [hlt heq]
  rw [hloop j hj, decide_eq_true hj, Bool.true_and]

theorem rowBit_convertRows {i j : Nat} (hi : i < height) (hj : j < width) :
    rowBit (convertRows height rows (fun _ => 0) i) j = glyph rows i j := by
  rw [convertRows, if_pos hi, rowBit_convertRow _ hj]
  rfl

theorem pixel_address (vram x y : U32) (i j : Nat) :
    vram + (y + BitVec.ofNat 32 i) * screenXsize + x + BitVec.ofNat 32 j =
      vram + BitVec.ofNat 32 ((y.toNat + i) * 320 + (x.toNat + j)) := by
  rw [BitVec.ofNat_add, BitVec.ofNat_mul, BitVec.ofNat_add, BitVec.ofNat_add, BitVec.ofNat_toNat,
    BitVec.ofNat_toNat, BitVec.setWidth_eq, BitVec.setWidth_eq, BitVec.add_assoc, BitVec.add_assoc]
  rfl

theorem ofNat_inj {p q : Nat} (hp : p < 64000) (hq : q < 64000) :
    BitVec.ofNat 32 p = BitVec.ofNat 32 q ↔ p = q := by
  rw [← BitVec.toNat_inj, BitVec.toNat_ofNat, BitVec.toNat_ofNat, Nat.mod_eq_of_lt (by omega),
    Nat.mod_eq_of_lt (by omega)]

/-- Exactly the pixels of the text glyph get the colour. -/
theorem putFontAsc_convert (rows : List (List U8)) (hlen : rows.length = height)
    (hrows : ∀ l ∈ rows, Fits l) (rest : List U8) (m : Mem) (vram x y : U32) (color : U8)
    (hx : x.toNat ≤ 320 - 8) (hy : y.toNat ≤ 200 - 16) (p : Nat) (hp : p < 320 * 200) :
    putFontAsc m vram x y color (convert (rows.flatMap line ++ rest) fun _ => 0).2
        (vram + BitVec.ofNat 32 p) =
      if ∃ i : Nat, i < 16 ∧ ∃ j : Nat, j < 8 ∧
        glyph rows i j = true ∧ p = (y.toNat + i) * 320 + (x.toNat + j)
      then color else m (vram + BitVec.ofNat 32 p) := by
  have hfont : ∀ i < 16, ∀ j < 8,
      rowBit (convertRows height rows (fun _ => 0) i) j = glyph rows i j :=
    fun i hi j hj => rowBit_convertRows hi hj
  rw [convert_rows hlen hrows, putFontAsc_eq m _ hfont, paint]
  refine if_congr ?_ rfl rfl
  refine exists_congr fun i => and_congr_right fun hi => ?_
  refine exists_congr fun j => and_congr_right fun hj => and_congr_right fun _ => ?_
  rw [pixel_address, BitVec.add_right_inj]
  exact ofNat_inj (by omega) (by omega)

/-- A glyph with one star, its left upper corner at (0, 0). -/
theorem putFontAsc_convert_star :
    putFontAsc (fun _ => 0) 0 0 0 7
        (convert ((List.replicate 16 [0x2a]).flatMap line ++ []) fun _ => 0).2
        (0 + BitVec.ofNat 32 320) =
      if ∃ i : Nat, i < 16 ∧ ∃ j : Nat, j < 8 ∧
        glyph (List.replicate 16 [0x2a]) i j = true ∧
          320 = ((0 : U32).toNat + i) * 320 + ((0 : U32).toNat + j)
      then 7 else 0 := by
  refine putFontAsc_convert (List.replicate 16 [0x2a]) rfl ?_ [] (fun _ => 0) 0 0 0 7 (by decide)
    (by decide) 320 (by decide)
  intro l hl
  rw [List.eq_of_mem_replicate hl]
  exact ⟨by decide, by decide⟩

def fontGlyph (font : FontFile) (b : U8) : Nat → Nat → Bool :=
  glyph (font.blocks[b.toNat]?.elim [] Block.rows)

def drawText (vram : U32) (font : FontFile) (y : U32) (color : U8) :
    List U8 → U32 → Mem → Mem
  | [], _, m => m
  | b :: text, x, m =>
    drawText vram font y color text (x + 8) (paint vram x y color (fontGlyph font b) m)

/-- The table is made, and every character drawn from its own part of it. -/
def Draws (out : Table) (font : FontFile) (text : List U8) (s : CStr) : Prop :=
  ∃ hankaku, makefont out font.text = .ok hankaku ∧
    hankaku.length = 16 * font.blocks.length ∧
    ∀ (m : Mem) (vram x y : U32) (color : U8), ∃ enough, ∀ fuel ≥ enough,
      printAsc fuel m vram hankaku x y color s = .ok (drawText vram font y color text x m)

theorem getD_flatMap {α β : Type} {f : α → List β} {k i : Nat} (hf : ∀ a, (f a).length = k)
    (hi : i < k) {l : List α} {n : Nat} (hn : n < l.length) (d : β) :
    (l.flatMap f).getD (n * k + i) d = (f l[n]).getD i d := by
  induction l generalizing n with
  | nil => exact absurd hn (Nat.not_lt_zero n)
  | cons a l ih =>
    rw [List.flatMap_cons]
    cases n with
    | zero =>
      rw [Nat.zero_mul, Nat.zero_add, List.getD_append _ _ _ _ (hf a ▸ hi)]
      rfl
    | succ n =>
      have hpos : n.succ * k + i = (f a).length + (n * k + i) := by
        rw [hf, Nat.succ_mul]
        omega
      rw [hpos, List.getD_append_right _ _ _ _ (Nat.le_add_right _ _), Nat.add_sub_cancel_left,
        ih (Nat.lt_of_succ_lt_succ hn)]
      rfl

theorem length_bytes (block : Block) : block.bytes.length = 16 := by
  rw [Block.bytes, List.length_map, List.length_range]
  rfl

theorem getD_bytes (block : Block) (hi : i < 16) :
    block.bytes.getD i 0 = convertRows height block.rows (fun _ => 0) i := by
  have hlength : i < ((List.range height).map
      (convertRows height block.rows fun _ => 0)).length := by
    rw [List.length_map, List.length_range]
    exact hi
  rw [Block.bytes, List.getD_eq_getElem _ _ hlength, List.getElem_map, List.getElem_range]

theorem length_hankaku (blocks : List Block) :
    (blocks.flatMap Block.bytes).length = 16 * blocks.length := by
  induction blocks with
  | nil => rfl
  | cons block blocks ih =>
    rw [List.flatMap_cons, List.length_append, length_bytes, ih, List.length_cons]
    omega

theorem toInt_of_lt (hb : b.toNat < 0x80) : b.toInt = b.toNat := by
  rw [BitVec.toInt_eq_toNat_cond, if_pos (by omega)]

theorem fontAt_block {blocks : List Block} (hb : b.toNat < 0x80) (hn : b.toNat < blocks.length) :
    ∃ f, fontAt (blocks.flatMap Block.bytes) (b.toInt * 16) = .ok f ∧
      ∀ i < 16, ∀ j < 8, rowBit (f i) j = glyph blocks[b.toNat].rows i j := by
  have hlen := length_hankaku blocks
  have hindex : b.toInt * 16 = (b.toNat * 16 : Nat) := by
    rw [toInt_of_lt hb]
    rfl
  have hinside : (0 : Int) ≤ (b.toNat * 16 : Nat) ∧
      ((b.toNat * 16 : Nat) : Int) + 16 ≤ (blocks.flatMap Block.bytes).length := by
    omega
  refine ⟨_, by rw [hindex, fontAt, if_pos hinside], ?_⟩
  intro i hi j hj
  rw [Int.toNat_natCast, getD_flatMap length_bytes hi hn]
  rw [getD_bytes _ hi]
  exact rowBit_convertRows hi hj

/-- A character that is negative, or of which the table has no block, is read outside it. -/
theorem fontAt_outside {blocks : List Block}
    (hb : ¬ (b.toNat < 0x80 ∧ b.toNat < blocks.length)) :
    fontAt (blocks.flatMap Block.bytes) (b.toInt * 16) = .error .outsideFont := by
  have hlen := length_hankaku blocks
  have hlt := b.isLt
  have hoff : ¬ (0 ≤ b.toInt * 16 ∧ b.toInt * 16 + 16 ≤ (blocks.flatMap Block.bytes).length) := by
    rw [BitVec.toInt_eq_toNat_cond]
    split_ifs <;> omega
  rw [fontAt, if_neg hoff]

theorem printAscLoop_inside (hs : Spells s i (text ++ [0])) (hne : ∀ b ∈ text, b ≠ 0)
    (hin : ∀ b ∈ text, b.toNat < 0x80 ∧ b.toNat < font.blocks.length)
    (hfuel : text.length < fuel) (x y vram : U32) (color : U8) (m : Mem) :
    printAscLoop vram (font.blocks.flatMap Block.bytes) x y color s fuel i m =
      .ok (drawText vram font y color text (x + BitVec.ofNat 32 i * 8) m) := by
  induction text generalizing i fuel m with
  | nil =>
    obtain ⟨fuel, rfl⟩ := Nat.exists_eq_succ_of_ne_zero (Nat.ne_of_gt hfuel)
    rw [printAscLoop, if_pos hs.1]
    rfl
  | cons b text ih =>
    obtain ⟨fuel, rfl⟩ := Nat.exists_eq_succ_of_ne_zero (Nat.ne_of_gt (Nat.zero_lt_of_lt hfuel))
    obtain ⟨hb, hn⟩ := hin b List.mem_cons_self
    obtain ⟨f, hf, hbits⟩ := fontAt_block hb hn
    have hglyph : glyph font.blocks[b.toNat].rows = fontGlyph font b := by
      rw [fontGlyph, List.getElem?_eq_getElem hn]
      rfl
    have hnext : x + BitVec.ofNat 32 (i + 1) * 8 = x + BitVec.ofNat 32 i * 8 + 8 := by
      rw [BitVec.ofNat_add, BitVec.add_mul, BitVec.add_assoc]
      rfl
    rw [hglyph] at hbits
    rw [printAscLoop, hs.1, if_neg (hne b List.mem_cons_self), hf]
    refine (ih hs.2 (fun b hb => hne b (List.mem_cons_of_mem _ hb))
      (fun b hb => hin b (List.mem_cons_of_mem _ hb)) (Nat.lt_of_succ_lt_succ hfuel) _).trans ?_
    rw [putFontAsc_eq m f hbits, hnext]
    rfl

theorem printAscLoop_outside (hs : Spells s i (text ++ [0])) (hne : ∀ b ∈ text, b ≠ 0)
    (hout : ∃ b ∈ text, ¬ (b.toNat < 0x80 ∧ b.toNat < font.blocks.length))
    (fuel : Nat) (x y vram : U32) (color : U8) (m m' : Mem) :
    printAscLoop vram (font.blocks.flatMap Block.bytes) x y color s fuel i m ≠ .ok m' := by
  induction text generalizing i fuel m with
  | nil =>
    obtain ⟨b, hb, _⟩ := hout
    exact absurd hb List.not_mem_nil
  | cons b text ih =>
    cases fuel with
    | zero =>
      rw [printAscLoop]
      nofun
    | succ fuel =>
      rw [printAscLoop, hs.1, if_neg (hne b List.mem_cons_self)]
      by_cases hb : b.toNat < 0x80 ∧ b.toNat < font.blocks.length
      · obtain ⟨f, hf, _⟩ := fontAt_block hb.1 hb.2
        rw [hf]
        refine ih hs.2 (fun b hb => hne b (List.mem_cons_of_mem _ hb)) ?_ fuel _
        obtain ⟨b', hmem, hbad⟩ := hout
        rcases List.mem_cons.mp hmem with rfl | htail
        · exact absurd hb hbad
        · exact ⟨b', htail, hbad⟩
      · rw [fontAt_outside hb]
        nofun

theorem room_of_draws (hok : font.Ok) (h : Draws out font text s) :
    font.blocks.length ≤ 255 := by
  obtain ⟨hankaku, hmade, _⟩ := h
  by_contra hmany
  rw [makefont_full hok (Nat.lt_of_not_le hmany)] at hmade
  cases hmade

theorem inside_of_draws (hok : font.Ok) (hs : Spells s 0 (text ++ [0]))
    (hne : ∀ b ∈ text, b ≠ 0) (h : Draws out font text s) :
    ∀ b ∈ text, b.toNat < 0x80 ∧ b.toNat < font.blocks.length := by
  have hroom := room_of_draws hok h
  obtain ⟨hankaku, hmade, _, hprint⟩ := h
  rw [makefont_ok hok hroom, Except.ok.injEq] at hmade
  by_contra hbad
  have hout : ∃ b ∈ text, ¬ (b.toNat < 0x80 ∧ b.toNat < font.blocks.length) := by
    by_contra hnone
    exact hbad fun b hb => by_contra fun h => hnone ⟨b, hb, h⟩
  obtain ⟨enough, henough⟩ := hprint (fun _ => 0) 0 0 0 0
  have hrun := henough enough (Nat.le_refl enough)
  rw [← hmade] at hrun
  exact printAscLoop_outside hs hne hout enough 0 0 0 0 _ _ hrun

def blankBlock : Block where
  before := []
  header := charWord
  rows := List.replicate 16 (List.replicate 8 0x2e)

def blankFont (n : Nat) : FontFile := ⟨List.replicate n blankBlock, []⟩

theorem blankFont_ok (n : Nat) : (blankFont n).Ok := by
  have hblock : blankBlock.Ok := {
    before_plain := by decide
    before_lines := Or.inl rfl
    header_fits := ⟨by decide, by decide⟩
    header_char := by decide
    rows_length := rfl
    rows_fit := by
      intro l hl
      rw [List.eq_of_mem_replicate hl]
      exact ⟨by decide, by decide⟩ }
  have hafter : ¬ charWord <:+: ([] : List U8) := by decide
  refine ⟨?_, hafter⟩
  intro block hmem
  rw [List.eq_of_mem_replicate hmem]
  exact hblock

theorem length_blankFont (n : Nat) : (blankFont n).blocks.length = n := List.length_replicate

def space : CStr := fun i => [0x20, 0].getD i 0

/-- A blank line, the header and the binary forms of `n` to `n + 15`. -/
def stripedBlock (n : Nat) : Block where
  before := [0x0a]
  header := charWord
  rows := (List.range 16).map fun i =>
    (List.range 8).map fun j => if (n + i).testBit j then 0x2a else 0x2e

def stripedFont (n : Nat) : FontFile := ⟨(List.range n).map stripedBlock, []⟩

theorem stripedFont_ok (n : Nat) : (stripedFont n).Ok := by
  have hblock : ∀ k, (stripedBlock k).Ok := by
    intro k
    have hbefore : ¬ charWord <:+: [0x0a] := by decide
    have hheader : Fits charWord ∧ hasChar charWord := ⟨⟨by decide, by decide⟩, by decide⟩
    refine ⟨hbefore, Or.inr rfl, hheader.1, hheader.2, rfl, ?_⟩
    intro l hl
    obtain ⟨i, _, rfl⟩ := List.mem_map.mp hl
    refine ⟨?_, by simp [bufLen]⟩
    intro hmem
    obtain ⟨j, _, hj⟩ := List.mem_map.mp hmem
    split at hj <;> cases hj
  have hafter : ¬ charWord <:+: ([] : List U8) := by decide
  refine ⟨?_, hafter⟩
  intro block hmem
  obtain ⟨k, _, rfl⟩ := List.mem_map.mp hmem
  exact hblock k

def az : CStr := fun i => [0x41, 0x5a, 0].getD i 0

def katakana : CStr := fun i => [0xb1, 0].getD i 0

end Uroboros.FontTable
