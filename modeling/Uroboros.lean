import Uroboros.Boot
import Uroboros.VMallocRuns
import Uroboros.VMallocUndo
import Uroboros.VMallocPages
import Uroboros.FrameLeak
import Uroboros.FrameChains
import Uroboros.Queue
import Uroboros.MtaskRuns
import Uroboros.MtaskExit
import Uroboros.Fat12Read
import Uroboros.QueueFifo
import Uroboros.MtaskOrder
import Uroboros.Command
import Uroboros.TimerRuns
import Uroboros.SleepWake
import Uroboros.ProcAlloc
import Uroboros.IntrEntry
import Uroboros.TaskImage
import Uroboros.Fat12Name
import Uroboros.CommandParse
import Uroboros.PMallocFree
import Uroboros.SprintfInt
import Uroboros.Strtol
import Uroboros.FontTable
import Uroboros.PrototypeRefines
import Uroboros.SprintfEnd
import Uroboros.SwitchingRuns
import Uroboros.FdcRead
import Uroboros.BootLoader
import Uroboros.Fat12Volume
import Uroboros.Pic
