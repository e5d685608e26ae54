import GraphQuery.Plan.Printer
import GraphQuery.Query.Execution
import GraphQuery.Schema.Session
import GraphQuery.Value.Reader
import GraphQuery.Proofs.Outcome
import GraphQuery.Proofs.Schema.Declaration
import GraphQuery.Proofs.Schema.Completed
import GraphQuery.Proofs.Schema.Slot
import GraphQuery.Proofs.Plan.Order
import GraphQuery.Proofs.Schema.WellFormed
import GraphQuery.Proofs.Schema.Subtype
import GraphQuery.Proofs.Keyed
import GraphQuery.Proofs.Value.Members
import GraphQuery.Proofs.Query.Level
import GraphQuery.Proofs.Query.Binding
import GraphQuery.Proofs.Query.RecordKey
import GraphQuery.Proofs.Query.Record
import GraphQuery.Proofs.Query.Render
import GraphQuery.Proofs.Query.Failure
import GraphQuery.Proofs.Query.Row
import GraphQuery.Proofs.Plan.Alike
import GraphQuery.Proofs.Query.Arrangement
import GraphQuery.Proofs.Query.Specialise
import GraphQuery.Proofs.Query.Enclosure
import GraphQuery.Proofs.Query.Condition
import GraphQuery.Proofs.Query.Reading
import GraphQuery.Proofs.Query.Tier
import GraphQuery.Proofs.Query.Casting
import GraphQuery.Proofs.Query.Root
import GraphQuery.Proofs.Query.Capability
import GraphQuery.Proofs.Query.RootCondition
import GraphQuery.Proofs.Query.Standing
import GraphQuery.Proofs.Query.ResponseKey
import GraphQuery.Proofs.Query.Turn
import GraphQuery.Proofs.Query.Alias
import GraphQuery.Proofs.Query.AliasExecution
import GraphQuery.Proofs.Query.Mutation
import GraphQuery.Proofs.Query.Rearrangement
import GraphQuery.Proofs.Query.Sibling
import GraphQuery.Proofs.Schema.Acceptance
import GraphQuery.Proofs.Schema.Fault
import GraphQuery.Proofs.Schema.PartialOrder
import GraphQuery.Proofs.Schema.Collision
import GraphQuery.Proofs.Schema.Session
import GraphQuery.Proofs.Schema.Merging
import GraphQuery.Proofs.Query.MergedField
import GraphQuery.Proofs.Query.Inlining
import GraphQuery.Proofs.Query.Nesting
import GraphQuery.Proofs.Store.Count
import GraphQuery.Proofs.Query.Account
import GraphQuery.Proofs.Query.Description
import GraphQuery.Proofs.Query.Typename
import GraphQuery.Proofs.Query.Arena
import GraphQuery.Proofs.Query.Frame
import GraphQuery.Proofs.Query.Fragment
import GraphQuery.Proofs.Schema.Precedence
import GraphQuery.Proofs.Query.Inheritance
import GraphQuery.Proofs.Plan.Scope
import GraphQuery.Proofs.Query.Builder
import GraphQuery.Proofs.Query.ParentScope
import GraphQuery.Proofs.Plan.Part
import GraphQuery.Proofs.Query.StrictTier
import GraphQuery.Proofs.Query.Safety
import GraphQuery.Proofs.Query.RowScope
import GraphQuery.Proofs.Query.BoundPlan
import GraphQuery.Proofs.Query.ForeignRow
import GraphQuery.Proofs.Query.ListElement
import GraphQuery.Proofs.Query.PostRecord
import GraphQuery.Proofs.Query.PlanLog
import GraphQuery.Proofs.Query.PostPlan
import GraphQuery.Proofs.Query.PostEntry
import GraphQuery.Proofs.Query.PostCall
import GraphQuery.Proofs.Query.Expansion
import GraphQuery.Proofs.Query.Depth
import GraphQuery.Proofs.Query.SelectionPath
import GraphQuery.Proofs.Input.Conformance
import GraphQuery.Proofs.Input.Delivery
import GraphQuery.Proofs.Schema.TypeGrammar
import GraphQuery.Proofs.Input.Idempotence
import GraphQuery.Proofs.Query.Growth
import GraphQuery.Proofs.Plan.Comparison
import GraphQuery.Proofs.Plan.Sorting
import GraphQuery.Proofs.Number.Rounding
import GraphQuery.Proofs.Plan.Integer
import GraphQuery.Proofs.Store.Lookup
import GraphQuery.Proofs.Store.History
import GraphQuery.Proofs.Query.Layout
import GraphQuery.Proofs.Plan.Mixture
