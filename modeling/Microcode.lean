import Microcode.Main
import Microcode.Proofs.List
import Microcode.Proofs.Text.Hex
import Microcode.Proofs.Pattern.Claims
import Microcode.Proofs.Pattern.Reading
import Microcode.Proofs.Pattern.Grammar
import Microcode.Proofs.OpcodeMap.Run
import Microcode.Proofs.Disassembler.Building
import Microcode.Proofs.Disassembler.Decoding
import Microcode.Proofs.Disassembler.RowOrder
import Microcode.Proofs.Encoding.Standard
import Microcode.Proofs.References.Recording
import Microcode.Proofs.Analysis.References
import Microcode.Proofs.Analysis.Boundaries
import Microcode.Proofs.Analysis.Standard
import Microcode.Proofs.Pattern.Partition
import Microcode.Proofs.Pattern.RoundTrip
import Microcode.Proofs.Pattern.Encode
import Microcode.Proofs.Disassembler.Rendering
import Microcode.Proofs.Operand
import Microcode.Proofs.Disassembler.Distinction
import Microcode.Proofs.Text.Lines
import Microcode.Proofs.ControlStore.Loading
import Microcode.Proofs.Report.Listing
import Microcode.Proofs.Analysis.Resolution
import Microcode.Proofs.CommandLine.Run
import Microcode.Proofs.OpcodeMap.Conflict
import Microcode.Proofs.ControlStore.Verdict
import Microcode.Proofs.OpcodeMap.Clash
import Microcode.Proofs.Pattern.Count
import Microcode.Proofs.OpcodeMap.Population
import Microcode.Proofs.References.Merging
import Microcode.Proofs.ControlStore.Size
import Microcode.Proofs.Report.Layout
import Microcode.Proofs.Report.Tables
import Microcode.Proofs.Encoding.Fault
import Microcode.Proofs.Json
import Microcode.Proofs.Disassembler.Unknown
import Microcode.Proofs.Report.Document
import Microcode.Proofs.Disassembler.Unnamed
import Microcode.Proofs.CommandLine.Opcode
import Microcode.Proofs.Pattern.Field
