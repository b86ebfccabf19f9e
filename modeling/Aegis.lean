import Aegis.Cas.Exact
import Aegis.Cas.Sweep
import Aegis.FastCdc.Port
import Aegis.Gc.Sessions
import Aegis.Gc.Quarantine
import Aegis.Auth.Transparency
import Aegis.Lock.Exclusion
import Aegis.Lock.Leader
import Aegis.Cdc.Delivery
import Aegis.Ingress.Manifests
import Aegis.Ingress.Verified
import Aegis.Cdc.Agreement
import Aegis.Edge.SingleUse
import Aegis.Gc.DryRun
import Aegis.Database.Monotonic
import Aegis.Ingress.Idempotency
import Aegis.Client.Resume
import Aegis.Web.UploadEngine
import Aegis.Ingress.Deadlock
import Aegis.Namespace.Deadlock
import Aegis.Lock.Advisory
import Aegis.Auth.Retry
import Aegis.Edge.Refusal
import Aegis.Namespace.Guard
import Aegis.FastCdc.Faults
import Aegis.FastCdc.Constant
import Aegis.FastCdc.Phases
import Aegis.FastCdc.GoCalls
import Aegis.Web.FastCdc
import Aegis.Namespace.SoftDelete
import Aegis.Ingress.Initiate
import Aegis.Database.Breaker
import Aegis.Derivation.Retry
import Aegis.Gc.Failures
