import DocLint.Main
import DocLint.Proofs.Conforming
import DocLint.Proofs.Extraction
import DocLint.Proofs.FileReports
import DocLint.Proofs.Interleaving
import DocLint.Proofs.Isolation
import DocLint.Proofs.LineEndings
import DocLint.Proofs.LineReading
import DocLint.Proofs.LineSpacing
import DocLint.Proofs.Literals
import DocLint.Proofs.Matching
import DocLint.Proofs.Munch
import DocLint.Proofs.Nearest
import DocLint.Proofs.Overrides
import DocLint.Proofs.ParamLists
import DocLint.Proofs.ParamSlots
import DocLint.Proofs.Placement
import DocLint.Proofs.PlainComments
import DocLint.Proofs.Regions
import DocLint.Proofs.ReportReading
import DocLint.Proofs.ReportedPaths
import DocLint.Proofs.RuleBuilding
import DocLint.Proofs.Schedule
import DocLint.Proofs.Selection
import DocLint.Proofs.SketchedScript
import DocLint.Proofs.Span
import DocLint.Proofs.Spelling
import DocLint.Proofs.TagReading
import DocLint.Proofs.Unclosed
