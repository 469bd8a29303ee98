import Mathlib.Data.List.GetD
import Mathlib.Data.List.Infix
import Uroboros.Config
import Uroboros.Lib.ForLoop

/-!
# The font converter

`makefont.c`, the program of the build that turns the font file into the table
`hankaku`. A `FILE *` is what is left to be read of the file; `malloc` gives the table
`out` with whatever it contains, and a store behind it ends the program. Printed are
the bytes after `.byte`, in their order.
-/

set_option autoImplicit false

namespace Uroboros.Makefont

open ForLoop

def bufLen : Nat := 16

def outLen : Nat := 0xff

def width : Nat := 8

def height : Nat := 16

inductive Fault where
  | diverges
  | behindTable
  deriving DecidableEq

/-- How much of the file `fgets` takes when `k` characters are free. -/
def lineLength : Nat → List U8 → Nat
  | 0, _ => 0
  | _ + 1, [] => 0
  | k + 1, c :: fp => if c = 0x0a then 1 else lineLength k fp + 1

def fgets (size : Nat) (fp : List U8) : Option (List U8 × List U8) :=
  if fp = [] then none
  else some (fp.take (lineLength (size - 1) fp), fp.drop (lineLength (size - 1) fp))

def charWord : List U8 := [0x63, 0x68, 0x61, 0x72]

/-- `strstr(buf, "char") != NULL`, of what stands before the first NUL. -/
def hasChar (buf : List U8) : Prop := charWord <:+: buf.takeWhile (· ≠ 0)

instance (buf : List U8) : Decidable (hasChar buf) := inferInstanceAs (Decidable (_ <:+: _))

/-- The loop over the columns; behind the line `buf` is zero. -/
def convertRow (buf : List U8) (line : U8) : U8 :=
  forLoop (fun j line =>
    let c : U8 := if buf.getD j 0 = 0x2a then 1 else 0
    line + c <<< (width - j - 1)) width line

/-- The body of the loop over the rows. -/
def convertPass (i : Nat) (st : List U8 × (Nat → U8)) : List U8 × (Nat → U8) :=
  let read := (fgets bufLen st.1).getD ([], st.1)
  (read.2, Function.update st.2 i (convertRow read.1 (st.2 i)))

def convert (fp : List U8) (line : Nat → U8) : List U8 × (Nat → U8) :=
  forLoop convertPass height (fp, line)

abbrev Table := Nat → Nat → U8

def clearedRow (i : Nat) (out : Table) : Table :=
  forLoop (fun j out => Function.update out i (Function.update (out i) j 0)) height out

def cleared (out : Table) : Table := forLoop clearedRow outLen out

def mainLoop : Nat → List U8 → Nat → Table → Except Fault (Nat × Table)
  | 0, _, _, _ => .error .diverges
  | fuel + 1, fp, index, out =>
    (fgets bufLen fp).elim (.ok (index, out)) fun read =>
      if ¬ hasChar read.1 then mainLoop fuel read.2 index out
      else if outLen ≤ index then .error .behindTable
      else
        let converted := convert read.2 (out index)
        mainLoop fuel converted.1 (index + 1) (Function.update out index converted.2)

def printed (index : Nat) (out : Table) : List U8 :=
  (List.range index).flatMap fun i => (List.range height).map (out i)

def makefont (out : Table) (fp : List U8) : Except Fault (List U8) :=
  (mainLoop (fp.length + 1) fp 0 (cleared out)).map fun r => printed r.1 r.2

variable {l fp rest before : List U8} {k index : Nat} {out : Table} {rows : List (List U8)}

theorem lineLength_line (hl : 0x0a ∉ l) (hk : l.length < k) (fp : List U8) :
    lineLength k (l ++ 0x0a :: fp) = l.length + 1 := by
  induction l generalizing k with
  | nil =>
    obtain ⟨k, rfl⟩ := Nat.exists_eq_succ_of_ne_zero (Nat.ne_of_gt hk)
    rfl
  | cons c l ih =>
    obtain ⟨k, rfl⟩ := Nat.exists_eq_succ_of_ne_zero (Nat.ne_of_gt (Nat.zero_lt_of_lt hk))
    have hc : ¬ c = 0x0a := fun h => hl (h ▸ List.mem_cons_self)
    have htail : 0x0a ∉ l := fun h => hl (List.mem_cons_of_mem c h)
    rw [List.cons_append, lineLength, if_neg hc, ih htail (Nat.lt_of_succ_lt_succ hk),
      List.length_cons]

theorem fgets_line (hl : 0x0a ∉ l) (hfits : l.length + 1 < bufLen) (fp : List U8) :
    fgets bufLen (l ++ 0x0a :: fp) = some (l ++ [0x0a], fp) := by
  have hne : l ++ 0x0a :: fp ≠ [] := List.append_ne_nil_of_right_ne_nil l (List.cons_ne_nil _ _)
  have hlen : lineLength (bufLen - 1) (l ++ 0x0a :: fp) = (l ++ [0x0a]).length := by
    rw [lineLength_line hl (by omega), List.length_append, List.length_singleton]
  have hsplit : l ++ 0x0a :: fp = (l ++ [0x0a]) ++ fp := List.append_cons l 0x0a fp
  rw [fgets, if_neg hne, hlen, hsplit, List.take_left, List.drop_left]

theorem lineLength_le (k : Nat) (fp : List U8) : lineLength k fp ≤ fp.length := by
  induction k generalizing fp with
  | zero => exact Nat.zero_le _
  | succ k ih =>
    cases fp with
    | nil => exact Nat.zero_le _
    | cons c fp =>
      rw [lineLength]
      split_ifs
      · exact Nat.succ_le_succ (Nat.zero_le _)
      · exact Nat.succ_le_succ (ih fp)

theorem lineLength_le_of_mem (hl : 0x0a ∈ l) (k : Nat) (fp : List U8) :
    lineLength k (l ++ fp) ≤ l.length := by
  induction l generalizing k with
  | nil => exact absurd hl List.not_mem_nil
  | cons c l ih =>
    cases k with
    | zero => exact Nat.zero_le _
    | succ k =>
      rw [List.cons_append, lineLength, List.length_cons]
      split_ifs with hc
      · exact Nat.succ_le_succ (Nat.zero_le _)
      · rcases List.mem_cons.mp hl with heq | htail
        · exact absurd heq.symm hc
        · exact Nat.succ_le_succ (ih htail k)

theorem lineLength_pos (k : Nat) (hne : fp ≠ []) : 0 < lineLength (k + 1) fp := by
  obtain ⟨c, fp, rfl⟩ := List.exists_cons_of_ne_nil hne
  rw [lineLength]
  split_ifs
  · exact Nat.one_pos
  · exact Nat.succ_pos _

theorem not_hasChar_take (hno : ¬ charWord <:+: l) (k : Nat) : ¬ hasChar (l.take k) := by
  intro hhas
  have hpart : (l.take k).takeWhile (· ≠ 0) <:+: l :=
    (List.takeWhile_prefix _).isInfix.trans (List.take_prefix k l).isInfix
  exact hno (hhas.trans hpart)

theorem fgets_before (hne : before ≠ [])
    (hend : rest = [] ∨ before = [] ∨ before.getLast? = some 0x0a) :
    ∃ k, 0 < k ∧ k ≤ before.length ∧
      fgets bufLen (before ++ rest) = some (before.take k, before.drop k ++ rest) := by
  have hnonempty : before ++ rest ≠ [] := List.append_ne_nil_of_left_ne_nil hne rest
  have hle : lineLength (bufLen - 1) (before ++ rest) ≤ before.length := by
    rcases hend with rfl | hnil | hlast
    · rw [List.append_nil]
      exact lineLength_le _ before
    · exact absurd hnil hne
    · exact lineLength_le_of_mem (List.mem_of_getLast? hlast) _ rest
  refine ⟨_, lineLength_pos 14 hnonempty, hle, ?_⟩
  rw [fgets, if_neg hnonempty]
  exact congrArg some (Prod.ext (List.take_append_of_le_length hle)
    (List.drop_append_of_le_length hle))

/-- Text without the word is passed over, line by line. -/
theorem mainLoop_skip (hno : ¬ charWord <:+: before)
    (hend : rest = [] ∨ before = [] ∨ before.getLast? = some 0x0a) (index : Nat) (out : Table) :
    ∃ passes ≤ before.length, ∀ fuel,
      mainLoop (passes + fuel) (before ++ rest) index out = mainLoop fuel rest index out := by
  induction hn : before.length using Nat.strong_induction_on generalizing before with
  | _ n ih =>
    by_cases hne : before = []
    · refine ⟨0, Nat.zero_le _, ?_⟩
      intro fuel
      rw [hne, Nat.zero_add, List.nil_append]
    · obtain ⟨k, hpos, hle, hread⟩ := fgets_before hne hend
      have hshort : (before.drop k).length < n := by
        rw [List.length_drop]
        omega
      have hpart : ¬ charWord <:+: before.drop k := fun h =>
        hno (h.trans (List.drop_suffix k _).isInfix)
      have hrest : rest = [] ∨ before.drop k = [] ∨ (before.drop k).getLast? = some 0x0a := by
        refine hend.imp_right fun hlast => ?_
        rw [List.getLast?_drop, List.drop_eq_nil_iff]
        split_ifs with hall
        · exact Or.inl hall
        · exact Or.inr (hlast.resolve_left hne)
      obtain ⟨passes, hpasses, hskip⟩ := ih _ hshort hpart hrest rfl
      refine ⟨passes + 1, by omega, ?_⟩
      intro fuel
      rw [Nat.add_right_comm, mainLoop, hread, Option.elim_some,
        if_pos (not_hasChar_take hno k), hskip]

theorem mainLoop_nil (fuel index : Nat) (out : Table) :
    mainLoop (fuel + 1) [] index out = .ok (index, out) := rfl

def line (l : List U8) : List U8 := l ++ [0x0a]

def Fits (l : List U8) : Prop := 0x0a ∉ l ∧ l.length + 1 < bufLen

/-- `out` with the columns of the first `n` rows added. -/
def convertRows (n : Nat) (rows : List (List U8)) (out : Nat → U8) : Nat → U8 := fun i =>
  if i < n then convertRow (rows.getD i []) (out i) else out i

theorem convertRow_line (l : List U8) (b : U8) : convertRow (line l) b = convertRow l b := by
  have hbody : ∀ j, ((line l).getD j 0 = 0x2a) = (l.getD j 0 = 0x2a) := by
    intro j
    rw [line, List.getD_eq_getElem?_getD, List.getD_eq_getElem?_getD]
    rcases Nat.lt_trichotomy j l.length with hlt | rfl | hgt
    · rw [List.getElem?_append_left hlt]
    · rw [List.getElem?_concat_length, List.getElem?_eq_none (Nat.le_refl _)]
      decide
    · have hlen : (l ++ [(0x0a : U8)]).length ≤ j := by
        rw [List.length_append, List.length_singleton]
        exact hgt
      rw [List.getElem?_eq_none hlen, List.getElem?_eq_none (Nat.le_of_lt hgt)]
  unfold convertRow
  simp only [hbody]

theorem convertPass_row (hl : Fits l) (i : Nat) (fp : List U8) (out : Nat → U8) :
    convertPass i (line l ++ fp, out) = (fp, Function.update out i (convertRow l (out i))) := by
  have hread : fgets bufLen (line l ++ fp) = some (line l, fp) := by
    rw [line, List.append_assoc, List.singleton_append]
    exact fgets_line hl.1 hl.2 fp
  rw [convertPass, hread, Option.getD_some, convertRow_line]

theorem convertRows_succ (n : Nat) (rows : List (List U8)) (out : Nat → U8) :
    convertRows (n + 1) rows out = Function.update (convertRows n rows out) n
      (convertRow (rows.getD n []) (convertRows n rows out n)) := by
  funext i
  rcases Nat.lt_trichotomy i n with hlt | rfl | hgt
  · rw [Function.update_of_ne (Nat.ne_of_lt hlt), convertRows, if_pos (Nat.lt_succ_of_lt hlt),
      convertRows, if_pos hlt]
  · rw [Function.update_self, convertRows, if_pos (Nat.lt_succ_self i), convertRows,
      if_neg (Nat.lt_irrefl i)]
  · have hnot : ¬ i < n + 1 := by omega
    rw [Function.update_of_ne (Nat.ne_of_gt hgt), convertRows, if_neg hnot, convertRows,
      if_neg (Nat.not_lt_of_gt hgt)]

theorem convert_rows (hlen : rows.length = height) (hrows : ∀ l ∈ rows, Fits l)
    (rest : List U8) (out : Nat → U8) :
    convert (rows.flatMap line ++ rest) out = (rest, convertRows height rows out) := by
  have hpass : ∀ n st, n < height →
      st = ((rows.drop n).flatMap line ++ rest, convertRows n rows out) →
      convertPass n st =
        ((rows.drop (n + 1)).flatMap line ++ rest, convertRows (n + 1) rows out) := by
    rintro n st hn rfl
    have hlt : n < rows.length := hlen ▸ hn
    have hrow : rows.getD n [] = rows[n] := List.getD_eq_getElem rows [] hlt
    rw [List.drop_eq_getElem_cons hlt, List.flatMap_cons, List.append_assoc,
      convertPass_row (hrows _ (List.getElem_mem hlt)), convertRows_succ, hrow]
  have hinit : (rows.flatMap line ++ rest, out) =
      ((rows.drop 0).flatMap line ++ rest, convertRows 0 rows out) := rfl
  have hdone : rows.drop height = [] := List.drop_eq_nil_of_le (Nat.le_of_eq hlen)
  have hloop := forLoop_invariant (fun n st =>
    st = ((rows.drop n).flatMap line ++ rest, convertRows n rows out)) hinit hpass
  rw [convert, hloop, hdone]
  rfl

/-- A header that contains the word, behind text that does not, and 16 rows. -/
structure Block where
  before : List U8
  header : List U8
  rows : List (List U8)

namespace Block

def text (block : Block) : List U8 :=
  block.before ++ (line block.header ++ block.rows.flatMap line)

structure Ok (block : Block) : Prop where
  before_plain : ¬ charWord <:+: block.before
  before_lines : block.before = [] ∨ block.before.getLast? = some 0x0a
  header_fits : Fits block.header
  header_char : hasChar block.header
  rows_length : block.rows.length = height
  rows_fit : ∀ l ∈ block.rows, Fits l

def bytes (block : Block) : List U8 :=
  (List.range height).map (convertRows height block.rows fun _ => 0)

end Block

structure FontFile where
  blocks : List Block
  after : List U8

namespace FontFile

def text (font : FontFile) : List U8 := font.blocks.flatMap Block.text ++ font.after

structure Ok (font : FontFile) : Prop where
  blocks_ok : ∀ block ∈ font.blocks, block.Ok
  after_plain : ¬ charWord <:+: font.after

end FontFile

variable {block : Block} {blocks : List Block}

theorem hasChar_line (h : hasChar l) : hasChar (line l) := by
  have hgrows : l.takeWhile (· ≠ 0) <+: (line l).takeWhile (· ≠ 0) := by
    rw [line, List.takeWhile_append]
    split_ifs with hall
    · rw [(List.takeWhile_prefix _).eq_of_length hall]
      exact List.prefix_append l _
    · exact List.prefix_refl _
  exact h.trans hgrows.isInfix

theorem mainLoop_block (hok : block.Ok) (rest : List U8) (index : Nat) (out : Table) :
    ∃ passes ≤ block.text.length, ∀ fuel, mainLoop (passes + fuel) (block.text ++ rest) index out =
      if outLen ≤ index then .error .behindTable
      else mainLoop fuel rest (index + 1)
        (Function.update out index (convertRows height block.rows (out index))) := by
  have hend : line block.header ++ (block.rows.flatMap line ++ rest) = [] ∨
      block.before = [] ∨ block.before.getLast? = some 0x0a := Or.inr hok.before_lines
  obtain ⟨passes, hpasses, hskip⟩ := mainLoop_skip hok.before_plain hend index out
  have hread : fgets bufLen (line block.header ++ (block.rows.flatMap line ++ rest)) =
      some (line block.header, block.rows.flatMap line ++ rest) := by
    rw [line, List.append_assoc, List.singleton_append]
    exact fgets_line hok.header_fits.1 hok.header_fits.2 _
  refine ⟨passes + 1, ?_, ?_⟩
  · rw [Block.text, List.length_append, List.length_append, line, List.length_append,
      List.length_singleton]
    omega
  · intro fuel
    have hfound : ¬ ¬ hasChar (line block.header) := not_not_intro (hasChar_line hok.header_char)
    rw [Block.text, List.append_assoc, List.append_assoc, Nat.add_assoc, hskip, Nat.add_comm 1,
      mainLoop, hread, Option.elim_some, if_neg hfound]
    dsimp only
    rw [convert_rows hok.rows_length hok.rows_fit]

theorem mainLoop_blocks (hok : ∀ block ∈ blocks, block.Ok)
    (hroom : index + blocks.length ≤ outLen) (rest : List U8) (out : Table) :
    ∃ passes ≤ (blocks.flatMap Block.text).length, ∃ out' : Table,
      (∀ fuel, mainLoop (passes + fuel) (blocks.flatMap Block.text ++ rest) index out =
        mainLoop fuel rest (index + blocks.length) out') ∧
      (∀ i < index, out' i = out i) ∧
      ∀ k (hk : k < blocks.length),
        out' (index + k) = convertRows height blocks[k].rows (out (index + k)) := by
  induction blocks generalizing index out with
  | nil =>
    refine ⟨0, Nat.zero_le _, out, ?_, fun _ _ => rfl, fun k hk => absurd hk (Nat.not_lt_zero k)⟩
    intro fuel
    rw [Nat.zero_add, List.flatMap_nil, List.nil_append, List.length_nil, Nat.add_zero]
  | cons block blocks ih =>
    rw [List.length_cons] at hroom
    obtain ⟨first, hfirst, hblock⟩ := mainLoop_block (hok block List.mem_cons_self)
      (blocks.flatMap Block.text ++ rest) index out
    have hnext : index + 1 + blocks.length ≤ outLen := by omega
    obtain ⟨passes, hpasses, out', hloop, hbelow, hrows⟩ :=
      ih (fun b hb => hok b (List.mem_cons_of_mem block hb)) hnext
        (Function.update out index (convertRows height block.rows (out index)))
    refine ⟨first + passes, ?_, out', ?_, ?_, ?_⟩
    · rw [List.flatMap_cons, List.length_append]
      omega
    · intro fuel
      have hfree : ¬ outLen ≤ index := by omega
      rw [List.flatMap_cons, List.append_assoc, Nat.add_assoc, hblock, if_neg hfree, hloop,
        List.length_cons, Nat.add_assoc, Nat.add_comm 1]
    · intro i hi
      rw [hbelow i (Nat.lt_succ_of_lt hi), Function.update_of_ne (Nat.ne_of_lt hi)]
    · intro k hk
      cases k with
      | zero => rw [Nat.add_zero, hbelow index (Nat.lt_succ_self index), Function.update_self]; rfl
      | succ k =>
        have hne : index + 1 + k ≠ index := by omega
        have hrow := hrows k (Nat.lt_of_succ_lt_succ hk)
        rw [Function.update_of_ne hne, Nat.add_assoc, Nat.add_comm 1] at hrow
        exact hrow

theorem mainLoop_full (hok : ∀ block ∈ blocks, block.Ok) (hroom : index ≤ outLen)
    (hmany : outLen < index + blocks.length) (rest : List U8) (out : Table) :
    ∃ passes ≤ (blocks.flatMap Block.text).length, ∀ fuel,
      mainLoop (passes + fuel) (blocks.flatMap Block.text ++ rest) index out =
        .error .behindTable := by
  induction blocks generalizing index out with
  | nil => exact absurd hmany (Nat.not_lt_of_le hroom)
  | cons block blocks ih =>
    rw [List.length_cons] at hmany
    obtain ⟨first, hfirst, hblock⟩ := mainLoop_block (hok block List.mem_cons_self)
      (blocks.flatMap Block.text ++ rest) index out
    rw [List.flatMap_cons, List.length_append]
    by_cases hfull : outLen ≤ index
    · refine ⟨first, by omega, ?_⟩
      intro fuel
      rw [List.append_assoc, hblock, if_pos hfull]
    · have hnext : index + 1 ≤ outLen := by omega
      obtain ⟨passes, hpasses, hloop⟩ :=
        ih (fun b hb => hok b (List.mem_cons_of_mem block hb)) hnext
          (by omega) (Function.update out index (convertRows height block.rows (out index)))
      refine ⟨first + passes, by omega, ?_⟩
      intro fuel
      rw [List.append_assoc, Nat.add_assoc, hblock, if_neg hfull, hloop]

theorem clearedRow_apply (i : Nat) (out : Table) (i' j : Nat) :
    clearedRow i out i' j = if i' = i ∧ j < height then 0 else out i' j := by
  have hloop : ∀ n, forLoop (fun j (out : Table) =>
      Function.update out i (Function.update (out i) j 0)) n out i' j =
        if i' = i ∧ j < n then 0 else out i' j := by
    intro n
    induction n with
    | zero => rw [forLoop_zero, if_neg fun h => Nat.not_lt_zero j h.2]
    | succ n ih =>
      rw [forLoop_succ]
      by_cases hi : i' = i
      · subst hi
        rw [Function.update_self]
        by_cases hj : j = n
        · rw [hj, Function.update_self, if_pos ⟨rfl, Nat.lt_succ_self n⟩]
        · rw [Function.update_of_ne hj, ih]
          refine if_congr (and_congr_right fun _ => ?_) rfl rfl
          omega
      · rw [Function.update_of_ne hi, ih, if_neg fun h => hi h.1, if_neg fun h => hi h.1]
  exact hloop height

theorem cleared_apply (out : Table) {i j : Nat} (hi : i < outLen) (hj : j < height) :
    cleared out i j = 0 := by
  refine forLoop_invariant (fun n (out : Table) => ∀ i < n, ∀ j < height, out i j = 0)
    ?_ ?_ i hi j hj
  · exact fun i hi => absurd hi (Nat.not_lt_zero i)
  · intro n out _ hzero i hi j hj
    rw [clearedRow_apply]
    split_ifs with hthis
    · rfl
    · have hlt : i < n := Nat.lt_of_le_of_ne (Nat.le_of_lt_succ hi) fun heq => hthis ⟨heq, hj⟩
      exact hzero i hlt j hj

theorem convertRows_zero (rows : List (List U8)) {out : Nat → U8}
    (hzero : ∀ j < height, out j = 0) :
    (List.range height).map (convertRows height rows out) =
      (List.range height).map (convertRows height rows fun _ => 0) := by
  refine List.map_congr_left fun j hj => ?_
  unfold convertRows
  rw [hzero j (List.mem_range.mp hj)]

theorem printed_rows (hrows : ∀ i (hi : i < blocks.length),
    (List.range height).map (out i) = blocks[i].bytes) :
    printed blocks.length out = blocks.flatMap Block.bytes := by
  have hmap : ((List.range blocks.length).map fun i => (List.range height).map (out i)) =
      blocks.map Block.bytes := by
    refine List.ext_getElem ?_ ?_
    · rw [List.length_map, List.length_map, List.length_range]
    · intro i hi hi'
      rw [List.getElem_map, List.getElem_map, List.getElem_range]
      exact hrows i (List.length_map (f := Block.bytes) ▸ hi')
  rw [printed, List.flatMap_def, hmap, List.flatMap_def]

/-- Every block of a font is converted, if they find room in the table. -/
theorem makefont_ok {font : FontFile} (hok : font.Ok) (hroom : font.blocks.length ≤ outLen)
    (out : Table) : makefont out font.text = .ok (font.blocks.flatMap Block.bytes) := by
  have hfirst : 0 + font.blocks.length ≤ outLen := by omega
  have hend : ([] : List U8) = [] ∨ font.after = [] ∨ font.after.getLast? = some 0x0a :=
    Or.inl rfl
  obtain ⟨passes, hpasses, out', hloop, -, hrows⟩ :=
    mainLoop_blocks hok.blocks_ok hfirst font.after (cleared out)
  obtain ⟨last, hlast, hskip⟩ :=
    mainLoop_skip hok.after_plain hend (0 + font.blocks.length) out'
  have hfuel : font.text.length + 1 =
      passes + (last + ((font.text.length - (passes + last)) + 1)) := by
    rw [FontFile.text, List.length_append]
    omega
  rw [List.append_nil] at hskip
  have hprinted : printed font.blocks.length out' = font.blocks.flatMap Block.bytes := by
    refine printed_rows ?_
    intro i hi
    have hrow := hrows i hi
    rw [Nat.zero_add] at hrow
    rw [hrow]
    exact convertRows_zero font.blocks[i].rows fun j hj => cleared_apply out (by omega) hj
  rw [Nat.zero_add] at hloop hskip
  rw [makefont, hfuel, FontFile.text, hloop, hskip, mainLoop_nil]
  exact congrArg Except.ok hprinted

theorem makefont_full {font : FontFile} (hok : font.Ok) (hmany : outLen < font.blocks.length)
    (out : Table) : makefont out font.text = .error .behindTable := by
  obtain ⟨passes, hpasses, hloop⟩ := mainLoop_full hok.blocks_ok (Nat.zero_le outLen)
    (by omega) font.after (cleared out)
  have hfuel : font.text.length + 1 = passes + (font.text.length + 1 - passes) := by
    rw [FontFile.text, List.length_append]
    omega
  rw [makefont, hfuel, FontFile.text, hloop]
  rfl

end Uroboros.Makefont
