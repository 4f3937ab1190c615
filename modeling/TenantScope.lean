import TenantScope.Text
import TenantScope.Site
import TenantScope.Literal
import TenantScope.Word
import TenantScope.Clause
import TenantScope.TableName
import TenantScope.Outline
import TenantScope.Statement
import TenantScope.Spacing
import TenantScope.Markup
import TenantScope.NormalForm
import TenantScope.Pattern
import TenantScope.Pattern.Reader
import TenantScope.Rejection
import TenantScope.Policy
import TenantScope.Policy.Verdict
import TenantScope.Tenant
import TenantScope.Repair.TrailingCondition
import TenantScope.Repair.MisplacedFilter
import TenantScope.Repair.ColumnAlias
import TenantScope.Repair
import TenantScope.Scope.Predicate
import TenantScope.Scope.Refusal
import TenantScope.Scope.Injection
import TenantScope.Rewriting
import TenantScope.Decimal
import TenantScope.Audit.Timestamp
import TenantScope.Audit.Level
import TenantScope.Audit.Object
import TenantScope.Audit.Event
import TenantScope.Settings.Document
import TenantScope.Settings
import TenantScope.Settings.Reader
import TenantScope.Main
import TenantScope.Proofs.Dialects
import TenantScope.Proofs.Words
import TenantScope.Proofs.Marks
import TenantScope.Proofs.Placement
import TenantScope.Proofs.Conjuncts
import TenantScope.Proofs.Splicing
import TenantScope.Proofs.Slots
import TenantScope.Proofs.Scoping
import TenantScope.Proofs.Stems
import TenantScope.Proofs.Fitting
import TenantScope.Proofs.Nesting
import TenantScope.Proofs.Injection
import TenantScope.Proofs.Extents
import TenantScope.Proofs.Unclosed
import TenantScope.Proofs.Isolation
import TenantScope.Proofs.Aliasing
import TenantScope.Proofs.Converging
import TenantScope.Proofs.Sanitizing
import TenantScope.Proofs.Unqualifying
import TenantScope.Proofs.FoldedForms
import TenantScope.Proofs.FoldedRepair
import TenantScope.Proofs.FoldedScope
import TenantScope.Proofs.FoldedVerdicts
import TenantScope.Proofs.Stages
import TenantScope.Proofs.Items
import TenantScope.Proofs.Tallies
import TenantScope.Proofs.Terminators
import TenantScope.Proofs.Lightening
import TenantScope.Proofs.Finding
import TenantScope.Proofs.Fences
import TenantScope.Proofs.Resanitizing
import TenantScope.Proofs.Occurrences
import TenantScope.Proofs.Verdicts
import TenantScope.Proofs.Forbidding
import TenantScope.Proofs.Configuring
import TenantScope.Proofs.Precedence
import TenantScope.Proofs.Records
import TenantScope.Proofs.Bare
import TenantScope.Proofs.Evenness
import TenantScope.Proofs.Rescoping
import TenantScope.Proofs.Repeating
import TenantScope.Proofs.Counting
import TenantScope.Proofs.Rejudging
import TenantScope.Proofs.Excising
import TenantScope.Proofs.Relocating
import TenantScope.Proofs.Overwriting
import TenantScope.Proofs.Qualified
import TenantScope.Proofs.Uniform
import TenantScope.Proofs.Timestamps
import TenantScope.Proofs.Retaining
import TenantScope.Proofs.References
import TenantScope.Proofs.IndexedScope
import TenantScope.Proofs.Tiling
import TenantScope.Proofs.Quotation
