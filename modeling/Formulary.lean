import Formulary.Main
import Formulary.Inspect
import Formulary.Template
import Formulary.Proofs.SlotBounds
import Formulary.Proofs.LoweredCode
import Formulary.Proofs.Provenance
import Formulary.Proofs.TemplateProvenance
import Formulary.Proofs.ReachableFormula
import Formulary.Proofs.CompiledAgreement
import Formulary.Proofs.Balance
import Formulary.Proofs.MaskContext
import Formulary.Proofs.Precedence
import Formulary.Proofs.Literal
import Formulary.Proofs.Phrase
import Formulary.Proofs.ArgumentPieces
import Formulary.Proofs.FragmentShape
import Formulary.Proofs.Grammar
import Formulary.Proofs.PhraseOutline
import Formulary.Proofs.GrammarComplete
import Formulary.Proofs.GrammarSound
import Formulary.Proofs.ParseGrammar
import Formulary.Proofs.Accesses
import Formulary.Proofs.FragmentPlace
import Formulary.Proofs.SiteOrder
import Formulary.Proofs.TextOrder
import Formulary.Proofs.Definition
import Formulary.Proofs.ParsedDefinition
import Formulary.Proofs.Inlining
import Formulary.Proofs.LineWords
import Formulary.Proofs.SessionStep
import Formulary.Proofs.ReachableSession
import Formulary.Proofs.CommandFrame
import Formulary.Proofs.SessionDefinitions
import Formulary.Proofs.Isolation
import Formulary.Proofs.Permanence
import Formulary.Proofs.CompiledStatus
import Formulary.Proofs.ArgumentHistory
import Formulary.Proofs.Memoisation
import Formulary.Proofs.BalanceDepth
import Formulary.ByteScan
import Formulary.Proofs.CodeUnits
import Formulary.Proofs.ScannedUnits
import Formulary.Proofs.CheckedScan
import Formulary.Proofs.ByteParse
import Formulary.Proofs.ScanListing
import Formulary.Proofs.ParseBounds
import Formulary.Proofs.FaultPlace
import Formulary.Proofs.Enclosure
import Formulary.Proofs.SignRole
import Formulary.Proofs.FiniteNumber
import Formulary.Proofs.RegularFormula
import Formulary.Proofs.CalledNames
import Formulary.Proofs.CallArity
import Formulary.Proofs.Extremes
import Formulary.Proofs.BindingsEquality
import Formulary.Proofs.ConstantFolding
import Formulary.Proofs.Partners
import Formulary.Proofs.SignAndRank
import Formulary.Proofs.SourceAlphabet
import Formulary.Proofs.RankRounding
import Formulary.Proofs.PlainNumber
import Formulary.Proofs.ListedArguments
import Formulary.Proofs.ScanPattern
import Formulary.Proofs.ArgumentSplit
import Formulary.Proofs.FiniteRange
import Formulary.Reading
import Formulary.Proofs.LiteralReading
import Formulary.Columns
import Formulary.Proofs.SignFirst
import Formulary.Proofs.ColumnsInvariant
