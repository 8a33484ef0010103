import Cavatools.Lib.Patch
import Cavatools.Lib.Ranges
import Cavatools.Lib.Digits
import Cavatools.Lib.Loop
import Cavatools.Lib.Recency
import Cavatools.Lib.StackDistance
import Cavatools.Lib.Run
import Cavatools.Lib.Sweep
import Cavatools.Lib.Bins
import Cavatools.Lib.Threads
import Cavatools.Lib.Ledger
import Cavatools.Riscv.Format
import Cavatools.Riscv.Compressed
import Cavatools.Riscv.Memory
import Cavatools.Riscv.Rv64i
import Cavatools.Riscv.Atomic
import Cavatools.Riscv.Word
import Cavatools.Riscv.Expand
import Cavatools.Uspike.Elf
import Cavatools.Uspike.ElfImage
import Cavatools.Uspike.ElfBias
import Cavatools.Uspike.Stack
import Cavatools.Uspike.Template
import Cavatools.Uspike.Cells
import Cavatools.Uspike.TemplateLaw
import Cavatools.Uspike.Insn
import Cavatools.Uspike.Opcodes
import Cavatools.Uspike.Decode
import Cavatools.Uspike.RvcDecode
import Cavatools.Uspike.Mmu
import Cavatools.Uspike.Fast
import Cavatools.Uspike.Line
import Cavatools.Uspike.Interpreter
import Cavatools.Uspike.Batch
import Cavatools.Uspike.FastDecode
import Cavatools.Uspike.Rv64iStep
import Cavatools.Uspike.Cas
import Cavatools.Uspike.Headers
import Cavatools.Uspike.Loadelf
import Cavatools.Uspike.Text
import Cavatools.Uspike.Illegal
import Cavatools.Uspike.Immed
import Cavatools.Uspike.Keeps
import Cavatools.Uspike.Stepwise
import Cavatools.Uspike.Access
import Cavatools.Uspike.Malloc
import Cavatools.Uspike.Calloc
import Cavatools.Uspike.HartList
import Cavatools.Uspike.WordOps
import Cavatools.Uspike.Expand
import Cavatools.Uspike.Amo
import Cavatools.Uspike.Clone
import Cavatools.Uspike.Gdblink
import Cavatools.Uspike.GdbCommand
import Cavatools.Uspike.Redecode
import Cavatools.Uspike.GdbSession
import Cavatools.Uspike.GdbAddress
import Cavatools.Uspike.GdbHex
import Cavatools.Uspike.GdbAtomic
import Cavatools.Uspike.GdbResume
import Cavatools.Uspike.RegZero
import Cavatools.Uspike.Process
import Cavatools.Uspike.Report
import Cavatools.Uspike.Options
import Cavatools.Caveat.MakeCache
import Cavatools.Caveat.Cache
import Cavatools.Caveat.CacheLru
import Cavatools.Caveat.Inclusion
import Cavatools.Caveat.MoreRows
import Cavatools.Caveat.Evicted
import Cavatools.Caveat.Dirty
import Cavatools.Caveat.FirstUse
import Cavatools.Caveat.MakeCacheLaw
import Cavatools.Caveat.PerfLayout
import Cavatools.Caveat.Perf
import Cavatools.Caveat.Mem
import Cavatools.Caveat.Core
import Cavatools.Caveat.Count
import Cavatools.Caveat.DataCache
import Cavatools.Erised.Histogram
import Cavatools.Erised.Interactive
import Cavatools.Uspike.Simulate
import Cavatools.Uspike.Effects
import Cavatools.Caveat.Transparent
import Cavatools.Caveat.Profile
import Cavatools.Caveat.Visits
import Cavatools.Riscv.Machine
import Cavatools.Riscv.Cores
import Cavatools.Uspike.ShortLines
import Cavatools.Uspike.Refine
import Cavatools.Uspike.Startup
import Cavatools.Uspike.Harts
import Cavatools.Uspike.GdbWire
import Cavatools.Lib.Dict
import Cavatools.Uspike.ParseOpcodes
import Cavatools.Uspike.SyscallMap
