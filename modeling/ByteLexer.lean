import ByteLexer.Automaton.Algebra
import ByteLexer.Main
import ByteLexer.Proofs.AlternativeWalks
import ByteLexer.Proofs.CharacterBoundaries
import ByteLexer.Proofs.ClassExpressions
import ByteLexer.Proofs.ClosedTexts
import ByteLexer.Proofs.Comments
import ByteLexer.Proofs.DigitGroups
import ByteLexer.Proofs.EndOfStream
import ByteLexer.Proofs.Identifiers
import ByteLexer.Proofs.IndexChecks
import ByteLexer.Proofs.KeptComments
import ByteLexer.Proofs.LineMode
import ByteLexer.Proofs.ListedWords
import ByteLexer.Proofs.LongestMatch
import ByteLexer.Proofs.MaximalMunch
import ByteLexer.Proofs.ParsingExpressions
import ByteLexer.Proofs.Progress
import ByteLexer.Proofs.QuickChecks
import ByteLexer.Proofs.Relexing
import ByteLexer.Proofs.Rollback
import ByteLexer.Proofs.RulePriority
import ByteLexer.Proofs.Sessions
import ByteLexer.Proofs.Termination
import ByteLexer.Proofs.TextAhead
import ByteLexer.Proofs.Tiling
import ByteLexer.Proofs.Unrolling
import ByteLexer.Proofs.WholeWords
import ByteLexer.Proofs.WordMaps
import ByteLexer.Session
