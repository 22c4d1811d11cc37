import PhraseGrammar.Main
import PhraseGrammar.Proofs.Derivation
import PhraseGrammar.Proofs.Decision
import PhraseGrammar.Proofs.Walk
import PhraseGrammar.Proofs.LiveReference
import PhraseGrammar.Proofs.Productive
import PhraseGrammar.Proofs.Replay
import PhraseGrammar.Proofs.Pieces
import PhraseGrammar.Proofs.LineVerdict
import PhraseGrammar.Proofs.RightHandSide
import PhraseGrammar.Proofs.Parse
import PhraseGrammar.Proofs.CrossCheck
import PhraseGrammar.Proofs.Leftmost
import PhraseGrammar.Proofs.ListingOrder
import PhraseGrammar.Proofs.Outcome
import PhraseGrammar.Proofs.Validity
import PhraseGrammar.Proofs.Lines
import PhraseGrammar.Proofs.WrittenRule
import PhraseGrammar.Proofs.Printing
import PhraseGrammar.Proofs.Bisimulation
import PhraseGrammar.Proofs.Growth
import PhraseGrammar.Proofs.LoadedGrammar
import PhraseGrammar.Proofs.Concatenation
import PhraseGrammar.Proofs.Margins
import PhraseGrammar.Proofs.SourceMargins
import PhraseGrammar.Proofs.JsonTokens
import PhraseGrammar.Proofs.JsonValues
import PhraseGrammar.Proofs.JsonCodec
import PhraseGrammar.Proofs.CommandLine
import PhraseGrammar.Proofs.SentenceLines
import PhraseGrammar.Proofs.SentenceReports
import PhraseGrammar.Proofs.DrawnSentences
import PhraseGrammar.Proofs.SoleSentence
import PhraseGrammar.Proofs.Recording
import PhraseGrammar.Proofs.ParsedJson
import PhraseGrammar.Proofs.FaultMessages
import PhraseGrammar.Proofs.Product
import PhraseGrammar.Proofs.Cursor
import PhraseGrammar.Proofs.LineOffsets
