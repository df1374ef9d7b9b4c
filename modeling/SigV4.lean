import SigV4.Lib.Bytes
import SigV4.Lib.Calendar
import SigV4.Lib.Checks
import SigV4.Lib.Decimal
import SigV4.Lib.Form
import SigV4.Lib.Hex
import SigV4.Lib.Interleaving
import SigV4.Lib.Machine
import SigV4.Lib.Outcome
import SigV4.Lib.Percent
import SigV4.Lib.Recency
import SigV4.Lib.Related
import SigV4.Lib.Segments
import SigV4.Lib.Slots
import SigV4.Lib.Str
import SigV4.Lib.Trim
import SigV4.Lib.Utf8
import SigV4.Spec.Arguments
import SigV4.Spec.Configuration
import SigV4.Spec.Directive
import SigV4.Spec.Duration
import SigV4.Spec.Grammar
import SigV4.Spec.HttpBlock
import SigV4.Spec.Origin
import SigV4.Spec.Path
import SigV4.Spec.Pieces
import SigV4.Spec.Policy
import SigV4.Spec.Presign
import SigV4.Spec.Presigner
import SigV4.Spec.Query
import SigV4.Spec.Reference
import SigV4.Spec.Request
import SigV4.Spec.Rules
import SigV4.Spec.Scope
import SigV4.Spec.Spelling
import SigV4.Spec.Verdict
import SigV4.Verifier.Calls
import SigV4.Verifier.Clones
import SigV4.Verifier.Config
import SigV4.Verifier.Escape
import SigV4.Verifier.Scope
import SigV4.Verifier.Sign
import SigV4.Verifier.Threads
import SigV4.Verifier.Types
import SigV4.Verifier.Uri
import SigV4.Verifier.Verify
import SigV4.ModuleConfig.Credential
import SigV4.ModuleConfig.Values
import SigV4.NginxModule.Conf
import SigV4.NginxModule.Handler
import SigV4.NginxModule.HttpBlock
import SigV4.NginxModule.Variables
import SigV4.Presigner.Presign
import SigV4.Proof.Answer
import SigV4.Proof.Config
import SigV4.Proof.Configuration
import SigV4.Proof.Directive
import SigV4.Proof.Escape
import SigV4.Proof.HttpBlock
import SigV4.Proof.Path
import SigV4.Proof.Presign
import SigV4.Proof.Query
import SigV4.Proof.Rules
import SigV4.Proof.Scope
import SigV4.Proof.Sign
import SigV4.Proof.Tamper
import SigV4.Proof.Verdict
import SigV4.Proof.Verify
import SigV4.Property.Allowlist
import SigV4.Property.ArgumentOrder
import SigV4.Property.Arguments
import SigV4.Property.Binding
import SigV4.Property.CacheHistory
import SigV4.Property.CanonicalPath
import SigV4.Property.CanonicalQuery
import SigV4.Property.CompiledState
import SigV4.Property.Completeness
import SigV4.Property.Concurrency
import SigV4.Property.Configuration
import SigV4.Property.Containment
import SigV4.Property.CredentialScope
import SigV4.Property.Dates
import SigV4.Property.Decoders
import SigV4.Property.Deployment
import SigV4.Property.Directive
import SigV4.Property.Duration
import SigV4.Property.Enforcement
import SigV4.Property.Eviction
import SigV4.Property.Grammar
import SigV4.Property.History
import SigV4.Property.Logging
import SigV4.Property.Malleability
import SigV4.Property.Origin
import SigV4.Property.Outcomes
import SigV4.Property.Parameters
import SigV4.Property.Prefixes
import SigV4.Property.Presigned
import SigV4.Property.Rehearsal
import SigV4.Property.Reordering
import SigV4.Property.Secrecy
import SigV4.Property.Separators
import SigV4.Property.Shadow
import SigV4.Property.Soundness
import SigV4.Property.Spelling
import SigV4.Property.Threads
import SigV4.Property.Verdict
import SigV4.Property.Window
