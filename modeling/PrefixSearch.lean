import PrefixSearch.Files.Directory
import PrefixSearch.Main
import PrefixSearch.Proofs.Arena.SameFile
import PrefixSearch.Proofs.Arena.SameTree
import PrefixSearch.Proofs.Arena.Shape
import PrefixSearch.Proofs.BytePositions
import PrefixSearch.Proofs.CanonicalText
import PrefixSearch.Proofs.ChosenWidths
import PrefixSearch.Proofs.Collisions
import PrefixSearch.Proofs.Coverage
import PrefixSearch.Proofs.CursorCalls
import PrefixSearch.Proofs.HostileLookup
import PrefixSearch.Proofs.HostileWalk
import PrefixSearch.Proofs.LongerData
import PrefixSearch.Proofs.MergedResults
import PrefixSearch.Proofs.PartedResults
import PrefixSearch.Proofs.RankedAnswers
import PrefixSearch.Proofs.RenderedResults
import PrefixSearch.Proofs.ReplacedResults
import PrefixSearch.Proofs.ScopedNames
import PrefixSearch.Proofs.SkippedRecords
import PrefixSearch.Proofs.StoredAliases
import PrefixSearch.Proofs.Text.Parts
import PrefixSearch.Proofs.TopCompletions
import PrefixSearch.Proofs.Trie.MergeOfTexts
import PrefixSearch.Proofs.TypedPrefixes
import PrefixSearch.Proofs.WalkedTree
