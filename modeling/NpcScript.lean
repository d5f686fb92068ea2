import NpcScript.Main
import NpcScript.Proofs.Walk
import NpcScript.Proofs.Jumps
import NpcScript.Proofs.Linking
import NpcScript.Proofs.Layout
import NpcScript.Proofs.Meaning
import NpcScript.Proofs.Drafting
import NpcScript.Proofs.RightSide
import NpcScript.Proofs.SourceReading
import NpcScript.Proofs.Compiling
import NpcScript.Proofs.Bytecode
import NpcScript.Proofs.Acceptance
import NpcScript.Proofs.Translation
import NpcScript.Proofs.Placement
import NpcScript.Proofs.Truncation
import NpcScript.Proofs.LineNumbers
import NpcScript.Proofs.Concatenation
import NpcScript.Proofs.LoadedText
import NpcScript.Proofs.Relayout
import NpcScript.Proofs.Listings
import NpcScript.Proofs.Vocabulary
import NpcScript.Proofs.ReadBack
import NpcScript.Proofs.Disassembly
import NpcScript.Proofs.Terms
import NpcScript.Proofs.FieldRanges
import NpcScript.Proofs.MessageLists
import NpcScript.Proofs.SharedTables
import NpcScript.Proofs.OpenEnds
import NpcScript.Proofs.CappedReading
import NpcScript.Proofs.WordFiles
import NpcScript.Proofs.Batches
import NpcScript.Proofs.KeptSources
import NpcScript.Proofs.StringSpans
import NpcScript.Proofs.OperatorSpacing
import NpcScript.Proofs.WordPlaces
import NpcScript.Proofs.LineTiling
import NpcScript.Proofs.SymbolTables
import NpcScript.Proofs.NormalLines
import NpcScript.Proofs.TokenOrigins
import NpcScript.Proofs.MessageNumbers
import NpcScript.Proofs.BracketCodes
import NpcScript.Proofs.Numerals
import NpcScript.Proofs.Scanning
import NpcScript.Proofs.LinkerSteps
