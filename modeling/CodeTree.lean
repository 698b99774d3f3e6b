import CodeTree.HelpTokens
import CodeTree.Proofs.Blocks
import CodeTree.Proofs.Changes
import CodeTree.Proofs.CommaRuns
import CodeTree.Proofs.Commas
import CodeTree.Proofs.Converting
import CodeTree.Proofs.DocumentBoxes
import CodeTree.Proofs.DotRuns
import CodeTree.Proofs.Finding
import CodeTree.Proofs.Frames
import CodeTree.Proofs.LineRuns
import CodeTree.Proofs.Lines
import CodeTree.Proofs.Lossless
import CodeTree.Proofs.Routes
import CodeTree.Proofs.Scans
import CodeTree.Proofs.Searching
import CodeTree.Proofs.Stepping
import CodeTree.Session
import CodeTree.Terminal
import CodeTree.Text.Excerpt
import CodeTree.Workload
import CodeTree.Proofs.ExpectedLines
import CodeTree.Proofs.FindingFirst
import CodeTree.Proofs.FreshLines
import CodeTree.Proofs.Numerals
import CodeTree.Proofs.Rebuilding
import CodeTree.Proofs.Grafting
import CodeTree.Proofs.Spans
import CodeTree.Proofs.Replacing
import CodeTree.Proofs.PuttingLines
import CodeTree.Proofs.Attaching
import CodeTree.Proofs.Navigating
import CodeTree.Proofs.Mending
import CodeTree.Proofs.BlockShifts
import CodeTree.Proofs.Preparing
import CodeTree.Proofs.InputForms
import CodeTree.Proofs.Drifting
import CodeTree.Proofs.BlockGaps
import CodeTree.Proofs.Ancestors
import CodeTree.Proofs.ReadingNeighbours
import CodeTree.Proofs.CommaFrames
import CodeTree.Proofs.Positions
import CodeTree.Proofs.Indentations
import CodeTree.Proofs.Inserting
import CodeTree.Proofs.ShiftsUndone
import CodeTree.Proofs.HelpTexts
import CodeTree.Proofs.ScanContracts
import CodeTree.Proofs.LeadingComma
import CodeTree.Proofs.FailedAssignments
import CodeTree.Proofs.FailedCalls
