import IPPcode23.Main
import IPPcode23.Proofs.Assembly.RoundTrip
import IPPcode23.Proofs.Machine.Calls
import IPPcode23.Proofs.Machine.Malformed
import IPPcode23.Proofs.Channel
import IPPcode23.Proofs.Machine.Failure
import IPPcode23.Proofs.Machine.Effect
import IPPcode23.Proofs.Machine.LocalFrames
import IPPcode23.Proofs.Machine.Checks
import IPPcode23.Proofs.Machine.Faults
import IPPcode23.Proofs.Machine.DataStack
import IPPcode23.Proofs.Rename.Instruction
import IPPcode23.Proofs.Rename.Memory
import IPPcode23.Proofs.Machine.Correspondence
import IPPcode23.Proofs.Machine.Diagnostics
import IPPcode23.Proofs.Machine.Append
import IPPcode23.Proofs.Machine.Translation
import IPPcode23.Proofs.Machine.Renaming
import IPPcode23.Proofs.Machine.Breaks
import IPPcode23.Proofs.Machine.Termination
import IPPcode23.Proofs.Input
import IPPcode23.Proofs.Xml.Arrangement
import IPPcode23.Proofs.Xml.RoundTrip
import IPPcode23.Proofs.Machine.Channels
import IPPcode23.Proofs.Machine.Output
import IPPcode23.Proofs.Machine.ReadBack
import IPPcode23.Proofs.Command.Routes
import IPPcode23.Proofs.Machine.Redeclaration
import IPPcode23.Proofs.Assembly.Composition
import IPPcode23.Proofs.Assembly.Layout
import IPPcode23.Proofs.Assembly.Grammar
import IPPcode23.Proofs.Literal.Pieces
import IPPcode23.Proofs.Machine.Comparison
import IPPcode23.Proofs.Xml.FirstFault
import IPPcode23.Proofs.Machine.Arithmetic
import IPPcode23.Proofs.Machine.Strings
import IPPcode23.Proofs.Machine.Replacement
import IPPcode23.Proofs.FrameHistory
