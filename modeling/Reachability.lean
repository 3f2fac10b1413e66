import Reachability.Argument
import Reachability.Builtin
import Reachability.Cache.Accept
import Reachability.Cache.Error
import Reachability.Cache.Payload
import Reachability.Cache.Seal
import Reachability.Cache.Store
import Reachability.Cache.Wire
import Reachability.Capped
import Reachability.Condition.Basic
import Reachability.Condition.Written
import Reachability.Error
import Reachability.Flag.Effect
import Reachability.Flag.Flags
import Reachability.Flag.Vocabulary
import Reachability.Hash.Blake3
import Reachability.Holdings
import Reachability.Inventory
import Reachability.NameSet
import Reachability.Options
import Reachability.Proofs.Cache.Accept
import Reachability.Proofs.Cache.Payload
import Reachability.Proofs.Cache.Seal
import Reachability.Proofs.Cache.Store
import Reachability.Proofs.Cache.Wire
import Reachability.Proofs.Condition
import Reachability.Proofs.Flags
import Reachability.Proofs.Inventory
import Reachability.Proofs.Outcome
import Reachability.Proofs.Rule
import Reachability.Proofs.Session.Accumulate
import Reachability.Proofs.Session.Compiled
import Reachability.Proofs.Session.Coverage
import Reachability.Proofs.Session.Evaluate
import Reachability.Proofs.Session.Footprint
import Reachability.Proofs.Session.Goal
import Reachability.Proofs.Session.Items
import Reachability.Proofs.Session.Marking
import Reachability.Proofs.Session.Minions
import Reachability.Proofs.Session.Monotone
import Reachability.Proofs.Session.Progression
import Reachability.Proofs.Session.Relevance
import Reachability.Proofs.Session.Reordered
import Reachability.Proofs.Session.Strict
import Reachability.Proofs.Sheet.Automaton
import Reachability.Proofs.Sheet.Comment
import Reachability.Proofs.Sheet.Complete
import Reachability.Proofs.Sheet.Errors
import Reachability.Proofs.Sheet.Faults
import Reachability.Proofs.Sheet.FlagList
import Reachability.Proofs.Sheet.Grammar
import Reachability.Proofs.Sheet.Joined
import Reachability.Proofs.Sheet.Labels
import Reachability.Proofs.Sheet.Rendered
import Reachability.Proofs.Sheet.Rewards
import Reachability.Proofs.Sheet.RuleLine
import Reachability.Proofs.Sheet.Rules
import Reachability.Proofs.Sheet.Sound
import Reachability.Proofs.Sheet.Written
import Reachability.Proofs.Table.Accepted
import Reachability.Proofs.Table.Acyclic
import Reachability.Proofs.Table.Blocks
import Reachability.Proofs.Table.Compiled
import Reachability.Proofs.Table.Cycle
import Reachability.Proofs.Table.Descents
import Reachability.Proofs.Table.Locations
import Reachability.Proofs.Table.Lookup
import Reachability.Proofs.Table.Order
import Reachability.Proofs.Table.Reordered
import Reachability.Proofs.Table.Replay
import Reachability.Proofs.Table.Sound
import Reachability.Proofs.Token.Columns
import Reachability.Proofs.Token.Scanner
import Reachability.Proofs.Token.Words
import Reachability.Reward
import Reachability.Rule.Basic
import Reachability.Rule.Slug
import Reachability.Session.Basic
import Reachability.Session.Error
import Reachability.Session.Evaluate
import Reachability.Session.Meaning
import Reachability.Session.Progression
import Reachability.Session.Role
import Reachability.Sheet.Automaton
import Reachability.Sheet.Fault
import Reachability.Sheet.Logic
import Reachability.Sheet.Place
import Reachability.Sheet.Rewards
import Reachability.Sheet.RuleLine
import Reachability.Sheet.Rules
import Reachability.Table.Bank
import Reachability.Table.Basic
import Reachability.Table.Compile
import Reachability.Table.Descent
import Reachability.Table.Draft
import Reachability.Table.Error
import Reachability.Table.Resolve
import Reachability.Table.Sheets
import Reachability.Text.Blank
import Reachability.Text.CaseTable
import Reachability.Text.Lines
import Reachability.Text.Lowercase
import Reachability.Text.Ranges
import Reachability.Token.Basic
import Reachability.Token.Escape
import Reachability.Token.Scan
