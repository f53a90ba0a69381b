import GuardedRevision.Ancestry
import GuardedRevision.BrowsePolicy
import GuardedRevision.Calendar
import GuardedRevision.Closure
import GuardedRevision.Command
import GuardedRevision.Command.Arguments
import GuardedRevision.Command.Report
import GuardedRevision.Command.Run
import GuardedRevision.CommitRecord
import GuardedRevision.Digest.Sha256
import GuardedRevision.Exposure
import GuardedRevision.Expression
import GuardedRevision.Fragment
import GuardedRevision.History
import GuardedRevision.HistoryWalk
import GuardedRevision.Json
import GuardedRevision.Main
import GuardedRevision.ObjectId
import GuardedRevision.ObjectText
import GuardedRevision.Pager
import GuardedRevision.Proofs.Abbreviations
import GuardedRevision.Proofs.Answerable
import GuardedRevision.Proofs.Answers
import GuardedRevision.Proofs.Asking
import GuardedRevision.Proofs.AssembledStores
import GuardedRevision.Proofs.Bookkeeping
import GuardedRevision.Proofs.Browsing
import GuardedRevision.Proofs.ByteOrder
import GuardedRevision.Proofs.Completeness
import GuardedRevision.Proofs.Digits
import GuardedRevision.Proofs.DirectSearch
import GuardedRevision.Proofs.Disclosure
import GuardedRevision.Proofs.Enumeration
import GuardedRevision.Proofs.FirstParent
import GuardedRevision.Proofs.FoundRefs
import GuardedRevision.Proofs.FragmentGrammar
import GuardedRevision.Proofs.Freshness
import GuardedRevision.Proofs.GatherRuns
import GuardedRevision.Proofs.Gathering
import GuardedRevision.Proofs.GenerationDigests
import GuardedRevision.Proofs.Generations
import GuardedRevision.Proofs.Growth
import GuardedRevision.Proofs.HiddenAncestors
import GuardedRevision.Proofs.HiddenFromCommands
import GuardedRevision.Proofs.HiddenHistory
import GuardedRevision.Proofs.HiddenObjects
import GuardedRevision.Proofs.Independence
import GuardedRevision.Proofs.LargerStore
import GuardedRevision.Proofs.LoadedSettings
import GuardedRevision.Proofs.LongestPrefix
import GuardedRevision.Proofs.LostObjects
import GuardedRevision.Proofs.Naming
import GuardedRevision.Proofs.NothingHidden
import GuardedRevision.Proofs.OrderedHistory
import GuardedRevision.Proofs.OrdinaryRefs
import GuardedRevision.Proofs.Outcome
import GuardedRevision.Proofs.PageCalls
import GuardedRevision.Proofs.Paging
import GuardedRevision.Proofs.Passes
import GuardedRevision.Proofs.Peeling
import GuardedRevision.Proofs.Permanence
import GuardedRevision.Proofs.PlainDigits
import GuardedRevision.Proofs.Ranges
import GuardedRevision.Proofs.Reachability
import GuardedRevision.Proofs.RefBases
import GuardedRevision.Proofs.RefFolders
import GuardedRevision.Proofs.RefListing
import GuardedRevision.Proofs.RefNameRules
import GuardedRevision.Proofs.RefPaths
import GuardedRevision.Proofs.Replays
import GuardedRevision.Proofs.ResolvedAgain
import GuardedRevision.Proofs.SearchSteps
import GuardedRevision.Proofs.Seeding
import GuardedRevision.Proofs.Separation
import GuardedRevision.Proofs.Service
import GuardedRevision.Proofs.SharedMemo
import GuardedRevision.Proofs.SharedTimes
import GuardedRevision.Proofs.Sorted
import GuardedRevision.Proofs.Sowing
import GuardedRevision.Proofs.Spelling
import GuardedRevision.Proofs.StagedSearch
import GuardedRevision.Proofs.StepLaws
import GuardedRevision.Proofs.Storage
import GuardedRevision.Proofs.TagListings
import GuardedRevision.Proofs.Times
import GuardedRevision.Proofs.TipGroups
import GuardedRevision.Proofs.UniqueDigits
import GuardedRevision.Proofs.Visibility
import GuardedRevision.Proofs.Walks
import GuardedRevision.Proofs.WellFormedRevisions
import GuardedRevision.Proofs.WrittenForms
import GuardedRevision.Proofs.YieldsOnce
import GuardedRevision.RefGeneration
import GuardedRevision.RefName
import GuardedRevision.Repository
import GuardedRevision.Repository.Complete
import GuardedRevision.Repository.Description
import GuardedRevision.Repository.Paths
import GuardedRevision.Repository.Refs
import GuardedRevision.Resolution
import GuardedRevision.Settings
import GuardedRevision.Settings.File
import GuardedRevision.Sorting
import GuardedRevision.TagListing
import GuardedRevision.Text.Glob
import GuardedRevision.Text.Search
import GuardedRevision.TimeMemo
import GuardedRevision.Toml.Item
import GuardedRevision.Toml.Reader
import GuardedRevision.Toml.Scalar
import GuardedRevision.VisibilityMemo
