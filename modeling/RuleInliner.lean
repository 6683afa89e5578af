import RuleInliner.Syntax.Term
import RuleInliner.Syntax.Rule
import RuleInliner.Syntax.Subst
import RuleInliner.Syntax.Stratify
import RuleInliner.Params.Basic
import RuleInliner.Unifier
import RuleInliner.Reference
import RuleInliner.Planner.Basic
import RuleInliner.Bulk.Basic
import RuleInliner.Planner.Frame
import RuleInliner.Planner.Multipliers
import RuleInliner.Bulk.Termination
import RuleInliner.Bulk.Count
import RuleInliner.Eager.Basic
import RuleInliner.Eager.Termination
import RuleInliner.Linear.Basic
import RuleInliner.Pass
import RuleInliner.Syntax.Paths
import RuleInliner.Linear.Step
import RuleInliner.Stages
import RuleInliner.Close
import RuleInliner.Planner.Cycles
import RuleInliner.Reuse
import RuleInliner.Planner.Order
import RuleInliner.Semantics
import RuleInliner.Resolution
import RuleInliner.Output
import RuleInliner.Params.Ref
import RuleInliner.Linear.Termination
import RuleInliner.Linear.Visitors
import RuleInliner.Params.Map
import RuleInliner.Params.Descrs
import RuleInliner.Reference.Unify
import RuleInliner.Sound
import RuleInliner.Finish
import RuleInliner.Reference.Mgu
import RuleInliner.Complete
import RuleInliner.Eager.Complete
import RuleInliner.Linear.Complete
import RuleInliner.Meaning
import RuleInliner.Replay
