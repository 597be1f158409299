import LineLang.Main
import LineLang.Proofs.Agreement
import LineLang.Proofs.CallResults
import LineLang.Proofs.CallSteps
import LineLang.Proofs.Calls
import LineLang.Proofs.Disks
import LineLang.Proofs.FirstFault
import LineLang.Proofs.Gaps
import LineLang.Proofs.Grammar
import LineLang.Proofs.Jobs
import LineLang.Proofs.JsonText
import LineLang.Proofs.Lookahead
import LineLang.Proofs.MachineWords
import LineLang.Proofs.Octets
import LineLang.Proofs.Places
import LineLang.Proofs.Pruning
import LineLang.Proofs.Range
import LineLang.Proofs.Rendering
import LineLang.Proofs.Replay
import LineLang.Proofs.RoundTrip
import LineLang.Proofs.Shape
import LineLang.Proofs.StoredTree
import LineLang.Proofs.StrictParser
import LineLang.Proofs.Terminals
import LineLang.Proofs.TolerantParser
import LineLang.Proofs.TraceLevels
import LineLang.Proofs.ViablePrefix
import LineLang.Session
import LineLang.Subject
import LineLang.Proofs.Schema
import LineLang.Proofs.Sessions
import LineLang.Proofs.Footprint
import LineLang.Proofs.MaximalMunch
import LineLang.Proofs.ScannersAgree
import LineLang.Proofs.LineBreaks
import LineLang.Proofs.Evaluation
import LineLang.Proofs.AcceptedPrefix
import LineLang.Proofs.Meaning
import LineLang.Proofs.IdleParts
import LineLang.Proofs.Coupling
import LineLang.Proofs.Unrolling
import LineLang.Proofs.Assignments
import LineLang.Proofs.WriteLog
import LineLang.Proofs.ReadingOrder
import LineLang.Proofs.Precedence
import LineLang.Proofs.Holes
import LineLang.Proofs.Independence
import LineLang.Proofs.Numerals
import LineLang.Proofs.Literals
import LineLang.Proofs.Spacing
import LineLang.Proofs.Words
import LineLang.Proofs.Parts
