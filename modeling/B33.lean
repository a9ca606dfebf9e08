import B33.Listing
import B33.Bus.Screen
import B33.Machine.Step
import B33.Machine.Disassembly
import B33.Machine.Report
import B33.Breakpoints
import B33.Cpu.Hook
import B33.Settings
import B33.Console.Directory
import B33.Main
import B33.Proofs.Executable.Cursor
import B33.Proofs.Machine.Encoding
import B33.Proofs.Analysis.Reassembly
import B33.Proofs.Machine.Indexed
import B33.Proofs.Assembly.Image
import B33.Proofs.Cpu.History
import B33.Proofs.Cpu.Arrival
import B33.Proofs.Cpu.Boundary
import B33.Proofs.Cpu.Idle
import B33.Proofs.Bus.Flat
import B33.Proofs.Machine.Disassembly
import B33.Proofs.Machine.Frame
import B33.Proofs.Assembly.SinglePass
import B33.Proofs.Cpu.Load
import B33.Proofs.Machine.Breakpoint
import B33.Proofs.Machine.Reassembly
import B33.Proofs.Source.Printed
import B33.Proofs.Machine.Comparison
import B33.Proofs.Machine.Subroutine
import B33.Proofs.Source.Folded
import B33.Proofs.Assembly.Folded
import B33.Proofs.Text.Case
import B33.Proofs.Machine.Fault
import B33.Proofs.Assembly.DebugTable
import B33.Proofs.Assembly.Inert
import B33.Proofs.Source.IndexOperand
import B33.Proofs.Source.Literal
import B33.Proofs.Bus.Attachment
import B33.Proofs.Bus.Keys
import B33.Proofs.Machine.Sound
import B33.Proofs.Source.Address
