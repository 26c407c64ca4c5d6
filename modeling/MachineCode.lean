import MachineCode.Agreement
import MachineCode.Instruction.Stream
import MachineCode.Main
import MachineCode.Proofs.Assembly.Listing
import MachineCode.Proofs.Sweep.Totality
import MachineCode.Proofs.BitString.Locality
import MachineCode.Proofs.Sweep.Policy
import MachineCode.Proofs.Sweep.Concatenation
import MachineCode.Proofs.Assembly.Reassembly
import MachineCode.Proofs.Assembly.Displacement
import MachineCode.Proofs.Assembly.LineSize
import MachineCode.Proofs.Move.Range
import MachineCode.Proofs.Move.Agreement
import MachineCode.Proofs.Sweep.Ownership
import MachineCode.Proofs.Sweep.Relocation
import MachineCode.Proofs.BitString.Totality
import MachineCode.Proofs.BitString.Truncation
import MachineCode.Proofs.ByteString.DirectAddress
import MachineCode.Proofs.Opcode.FirstMatch
import MachineCode.Proofs.Sweep.Failures
import MachineCode.Proofs.Sweep.Stream
import MachineCode.Proofs.Sweep.GroupLayout
import MachineCode.Proofs.Move.OpcodeBits
import MachineCode.Proofs.Program.Layout
import MachineCode.Proofs.Sweep.Messages
import MachineCode.Proofs.BitString.Splitting
import MachineCode.Proofs.Settings.Fieldwise
