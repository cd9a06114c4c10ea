import TabnasBnf.Analysis
import TabnasBnf.Annotate
import TabnasBnf.AnnotateCorrect
import TabnasBnf.ArrayHelpers
import TabnasBnf.AttachActions
import TabnasBnf.BudgetTrace
import TabnasBnf.ClassReads
import TabnasBnf.ClassTokens
import TabnasBnf.Classes
import TabnasBnf.CompileLang
import TabnasBnf.Contest
import TabnasBnf.ContestSymmetric
import TabnasBnf.DesugarConsumes
import TabnasBnf.DesugarCorrect
import TabnasBnf.DesugarLoops
import TabnasBnf.Desugared
import TabnasBnf.Dispatch
import TabnasBnf.DispatchCovers
import TabnasBnf.DispatchDecides
import TabnasBnf.DispatchExact
import TabnasBnf.DispatchRepeats
import TabnasBnf.Emit
import TabnasBnf.EmitCharges
import TabnasBnf.EmitEntries
import TabnasBnf.EmitLang
import TabnasBnf.EmitLoops
import TabnasBnf.EmitNames
import TabnasBnf.EmitPlace
import TabnasBnf.EmitRead
import TabnasBnf.EmitRules
import TabnasBnf.EmitWrites
import TabnasBnf.EmptyInput
import TabnasBnf.Engine
import TabnasBnf.ExitGuards
import TabnasBnf.Factor
import TabnasBnf.FactorCorrect
import TabnasBnf.FactorEnds
import TabnasBnf.FactorOrder
import TabnasBnf.FirstExact
import TabnasBnf.FirstFollow
import TabnasBnf.FollowCovers
import TabnasBnf.FollowExact
import TabnasBnf.HiddenSplits
import TabnasBnf.IterationsConsume
import TabnasBnf.Jsonic
import TabnasBnf.KeywordGuards
import TabnasBnf.LeadingCycles
import TabnasBnf.LeftCorner
import TabnasBnf.LeftRec
import TabnasBnf.LeftRecCharges
import TabnasBnf.LeftRecComplete
import TabnasBnf.LeftRecLang
import TabnasBnf.LeftRecOrder
import TabnasBnf.Lib.Checked
import TabnasBnf.Lib.Corner
import TabnasBnf.Lib.JsonText
import TabnasBnf.Lib.Lockstep
import TabnasBnf.Lib.Loop
import TabnasBnf.Lib.Memo
import TabnasBnf.Lib.Saturate
import TabnasBnf.Lib.Scc
import TabnasBnf.Lib.Search
import TabnasBnf.Lib.Subst
import TabnasBnf.Lib.WorkQueue
import TabnasBnf.LiteralPatterns
import TabnasBnf.LoopCounter
import TabnasBnf.LoopDepth
import TabnasBnf.LoopEntered
import TabnasBnf.Marks
import TabnasBnf.Nullable
import TabnasBnf.PassElements
import TabnasBnf.PassKeeps
import TabnasBnf.PassLang
import TabnasBnf.Passes
import TabnasBnf.PathCuts
import TabnasBnf.PathFollows
import TabnasBnf.PlaceOrder
import TabnasBnf.Probe
import TabnasBnf.ProbeCorrect
import TabnasBnf.ProbesApart
import TabnasBnf.Prose
import TabnasBnf.ProseCorrect
import TabnasBnf.Provenance
import TabnasBnf.Ranges
import TabnasBnf.Recognition
import TabnasBnf.Repetition
import TabnasBnf.RepetitionCheck
import TabnasBnf.RepetitionCopies
import TabnasBnf.Settled
import TabnasBnf.SourcesMirror
import TabnasBnf.SpecClosed
import TabnasBnf.SubstitutionSettles
import TabnasBnf.SuffixDebt
import TabnasBnf.TailCorrect
import TabnasBnf.Tailed
import TabnasBnf.TokenAlloc
import TabnasBnf.TokenClass
import TabnasBnf.TokenNames
import TabnasBnf.TokenSpan
import TabnasBnf.Transduce
import TabnasBnf.TransduceCarries
import TabnasBnf.TransduceLines
import TabnasBnf.WireSpec
