import Cograph.Machine
import Cograph.ByKey
import Cograph.Scim
import Cograph.ScimSound
import Cograph.ScimRejected
import Cograph.Admins
import Cograph.AdminsSound
import Cograph.Pipeline
import Cograph.PipelineMoves
import Cograph.PipelineSound
import Cograph.Recorded
import Cograph.PushSound
import Cograph.FinalSound
import Cograph.Jobs
import Cograph.JobsSound
import Cograph.Builder
import Cograph.BuilderRows
import Cograph.BuilderSound
import Cograph.BuilderFacts
import Cograph.Owners
import Cograph.Ingest
import Cograph.IngestRows
import Cograph.IngestPlan
import Cograph.IngestDiff
import Cograph.IngestSound
import Cograph.MovesSound
import Cograph.ReachSound
import Cograph.Regex
import Cograph.Strs
import Cograph.Citations
import Cograph.CitationsSound
import Cograph.Coverage
import Cograph.CoverageSound
import Cograph.Gates
import Cograph.GatesSound
import Cograph.Pages
import Cograph.PageStore
import Cograph.Dirty
import Cograph.StoreSound
import Cograph.WikiRun
import Cograph.FixpointSound
import Cograph.QualitySound
import Cograph.WikiRunSound
import Cograph.DirtySound
import Cograph.Edits
import Cograph.EditsSound
import Cograph.Names
import Cograph.Kleene
import Cograph.Access
import Cograph.StretchesSound
import Cograph.Resolve
import Cograph.ResolveSound
import Cograph.PrevalidateSound
import Cograph.GoBuild
import Cograph.GoTokensSound
import Cograph.GoBuildSound
import Cograph.ConstraintSound
import Cograph.Uploads
import Cograph.UploadsSound
import Cograph.Collections
import Cograph.CollectionsSound
import Cograph.CollectionRequests
import Cograph.GrantSound
import Cograph.Grouping
import Cograph.UsageReports
import Cograph.UsageSound
import Cograph.EvidenceSound
import Cograph.Ranges
import Cograph.CheckoutSound
import Cograph.SummariesSound
import Cograph.MdIndexer
import Cograph.MdIndexerSound
import Cograph.Bfs
import Cograph.Traversal
import Cograph.TraversalSound
import Cograph.Tokens
import Cograph.TokensSound
import Cograph.Credentials
import Cograph.CredentialsSound
import Cograph.DeprovisionSound
import Cograph.RotationSound
import Cograph.Throttle
import Cograph.ThrottleSound
import Cograph.QueryLog
import Cograph.QueryLogSound
import Cograph.ArraysSound
import Cograph.Versions
import Cograph.VersionsSound
import Cograph.RepoDocs
import Cograph.DocLinker
import Cograph.DocIndexer
import Cograph.DocIndexerSound
import Cograph.Idempotency
import Cograph.IdempotencySound
import Cograph.Lifecycle
import Cograph.LifecycleMoves
import Cograph.StatusSound
import Cograph.SoftDeleteSound
import Cograph.CascadeSound
import Cograph.Oidc
import Cograph.OidcSound
import Cograph.Ranked
import Cograph.Context
import Cograph.ContextSound
import Cograph.Cuts
import Cograph.Chunker
import Cograph.ChunkerPacks
import Cograph.ChunkerSound
import Cograph.Outline
import Cograph.HeadingPathsSound
import Cograph.NameStatus
import Cograph.NonBlank
import Cograph.ChunkerLossless
import Cograph.HeadingPattern
import Cograph.ForbiddenSound
import Cograph.MarkersSound
import Cograph.AutoLinkSound
import Cograph.ZipCheckoutSound
import Cograph.RateLimitSound
import Cograph.FusionSound
import Cograph.LinkResolverSound
import Cograph.TsResolve
import Cograph.Compact
import Cograph.ParentsSound
import Cograph.Occurrences
import Cograph.Snippet
import Cograph.SnippetSound
import Cograph.ToolUse
import Cograph.ToolUseSound
import Cograph.Plan
import Cograph.Paging
import Cograph.Replace
import Cograph.Labels
import Cograph.GitUrl
import Cograph.GitUrlSound
import Cograph.DocsTree
import Cograph.DocsTreeSound
import Cograph.CodeSpans
import Cograph.InlineCode
import Cograph.SourceLines
import Cograph.StripSound
import Cograph.CallLists
import Cograph.Importance
import Cograph.DocWindows
import Cograph.JsonDump
import Cograph.Fingerprint
import Cograph.SourceRouter
import Cograph.SourceRouterSound
import Cograph.Hybrid
import Cograph.HybridSound
import Cograph.ToolCompaction
import Cograph.Blame
import Cograph.BlameSound
import Cograph.Slots
import Cograph.Schedule
import Cograph.ScheduleSound
import Cograph.OidcLogin
import Cograph.OidcLoginSound
import Cograph.References
import Cograph.Purge
import Cograph.PurgeSound
import Cograph.Registers
import Cograph.Groups
import Cograph.GroupsSound
import Cograph.Sealing
import Cograph.Secrets
import Cograph.SecretsSound
import Cograph.Embedding
import Cograph.EmbeddingSound
import Cograph.Gateway
import Cograph.GatewaySound
