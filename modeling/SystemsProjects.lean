import SystemsProjects.Lib.Fuel
import SystemsProjects.Lib.Machine
import SystemsProjects.Lib.Checked
import SystemsProjects.Lib.Arrays
import SystemsProjects.Bytecode.Ast
import SystemsProjects.Bytecode.Parser
import SystemsProjects.Bytecode.ParserRules
import SystemsProjects.Bytecode.ParserChain
import SystemsProjects.Bytecode.Rendering
import SystemsProjects.Bytecode.Precedence
import SystemsProjects.Bytecode.Language
import SystemsProjects.Bytecode.Spelling
import SystemsProjects.Bytecode.RoundTrip
import SystemsProjects.Bytecode.Acceptance
import SystemsProjects.Bytecode.Vm
import SystemsProjects.Bytecode.Codegen
import SystemsProjects.Bytecode.Emission
import SystemsProjects.Bytecode.Variables
import SystemsProjects.Bytecode.Semantics
import SystemsProjects.Bytecode.VmRules
import SystemsProjects.Bytecode.CompilerCorrect
import SystemsProjects.Lib.Bitmap
import SystemsProjects.Pelikan.Pmm
import SystemsProjects.Pelikan.PmmOwnership
import SystemsProjects.Lib.Transition
import SystemsProjects.Lib.LinkedQueue
import SystemsProjects.Pelikan.Scheduler
import SystemsProjects.Pelikan.TaskModel
import SystemsProjects.Pelikan.TaskSystem
import SystemsProjects.Pelikan.TaskRefinement
import SystemsProjects.Pelikan.SchedulerCoherence
import SystemsProjects.Pelikan.MutexSafety
import SystemsProjects.Lib.ByteMemory
import SystemsProjects.Lib.Tiling
import SystemsProjects.Pelikan.Heap
import SystemsProjects.Pelikan.HeapBlocks
import SystemsProjects.Pelikan.HeapAlloc
import SystemsProjects.Pelikan.HeapSearch
import SystemsProjects.Pelikan.HeapFree
import SystemsProjects.Pelikan.HeapRuns
import SystemsProjects.Bytecode.Layout
import SystemsProjects.Bytecode.JumpTargets
import SystemsProjects.Bytecode.Decoding
import SystemsProjects.Bytecode.VmSafety
import SystemsProjects.Lib.RingBuffer
import SystemsProjects.Pelikan.Keyboard
import SystemsProjects.Lib.Rows
import SystemsProjects.Pelikan.Vga
import SystemsProjects.Pelikan.Shell
import SystemsProjects.Pelikan.ShellScreen
import SystemsProjects.Lib.LittleEndian
import SystemsProjects.MyMalloc.Allocator
import SystemsProjects.MyMalloc.Alignment
import SystemsProjects.Lib.CircularList
import SystemsProjects.Pelikan.TaskRing
import SystemsProjects.Pelikan.Gaps
import SystemsProjects.Pelikan.TaskCells
import SystemsProjects.Pelikan.TaskMemory
import SystemsProjects.Pelikan.TaskStore
import SystemsProjects.Pelikan.Reaping
import SystemsProjects.Pelikan.CreateCalls
import SystemsProjects.Pelikan.CreateMemory
import SystemsProjects.Pelikan.CreateRace
import SystemsProjects.Lib.Ownership
import SystemsProjects.Lib.WordStack
import SystemsProjects.Pelikan.Switch
import SystemsProjects.Pelikan.Preemption
import SystemsProjects.Pelikan.SwitchInvariant
import SystemsProjects.Pelikan.SwitchRuns
import SystemsProjects.Pelikan.SwitchExits
import SystemsProjects.Pelikan.SwitchCommands
import SystemsProjects.Pelikan.Transparency
import SystemsProjects.Pelikan.Terminal
import SystemsProjects.Pelikan.Itoa
import SystemsProjects.Lib.Operations
import SystemsProjects.Pelikan.TaskQueues
import SystemsProjects.Lib.Decimal
import SystemsProjects.Pelikan.PmmInit
import SystemsProjects.Pelikan.HeapCalls
import SystemsProjects.Pelikan.Coalescing
import SystemsProjects.Pelikan.HeapFaults
import SystemsProjects.Pelikan.Vmm
import SystemsProjects.Pelikan.CreateTask
import SystemsProjects.Pelikan.Boot
import SystemsProjects.Pelikan.UsableFrames
import SystemsProjects.Pelikan.Translation
import SystemsProjects.Pelikan.VmmRuns
import SystemsProjects.Pelikan.BoundedWaiting
import SystemsProjects.Lib.Fifo
import SystemsProjects.Pelikan.TaskList
import SystemsProjects.Pelikan.ReaperFlags
import SystemsProjects.Lib.Scratch
import SystemsProjects.Bytecode.Lexer
import SystemsProjects.Bytecode.LexerRules
import SystemsProjects.Bytecode.Lexemes
import SystemsProjects.Bytecode.LexerBuffers
import SystemsProjects.Bytecode.ExpressionEnds
import SystemsProjects.Bytecode.ParserProgress
import SystemsProjects.Bytecode.CodeBuffer
import SystemsProjects.Bytecode.Slots
import SystemsProjects.Bytecode.Literals
import SystemsProjects.Bytecode.Division
import SystemsProjects.Bytecode.Calls
import SystemsProjects.Bytecode.ParserReads
import SystemsProjects.Bytecode.Pipeline
import SystemsProjects.Bytecode.LexerExact
import SystemsProjects.Bytecode.Verifier
import SystemsProjects.Pelikan.Console
import SystemsProjects.Pelikan.Interrupts
import SystemsProjects.Pelikan.Descriptors
import SystemsProjects.Pelikan.Delivery
import SystemsProjects.Pelikan.Clock
import SystemsProjects.Pelikan.WakeUps
import SystemsProjects.Pelikan.Deadlock
import SystemsProjects.Pelikan.Starvation
import SystemsProjects.Pelikan.Accounting
import SystemsProjects.Pelikan.HeapDump
