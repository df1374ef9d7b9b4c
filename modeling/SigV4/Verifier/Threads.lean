import SigV4.Lib.Interleaving
import SigV4.Verifier.Verify

/-!
# Threads

A `Verifier` is an `Arc<State>`, so that threads can hold clones of one verifier and call
`verify` side by side, while any of them reloads its own. What they share is the memory the
pointers lead to. Only the caches in it ever change, behind their locks: a call of `verify`
is its checks, the lookup under the read lock, after a miss the section under the write lock,
and the comparison of the signatures, with steps of other threads in between.
-/

namespace SigV4

open Outcome Interleaving

variable {ε : Type}

/-- The arguments of a call of `verify`. -/
structure Call where
  method : Str
  rawUri : Bytes
  host : Str
  now : SystemTime
  deriving DecidableEq

/-! ## `verify`, cut where it takes the locks -/

/-- What a call has computed before it takes a lock. -/
structure Pending where
  line : RequestLine
  params : Parameters
  canonicalHash : Digest

/-- `verify`, up to the signing key. -/
def prepare (C : Crypto) (self : State) (call : Call) : Outcome VerifyResult Pending := do
  let (line, params, _) ← checkRequest C self call.method call.rawUri call.host call.now
  let canonicalPath ← canonicalUriFromValidPath line.rawPath
  ok ⟨line, params,
    hashCanonicalRequest C line.method canonicalPath line.canonicalQueryString line.host⟩

/-- `verify`, from the signing key on. -/
def Pending.finish (C : Crypto) (self : Pending) (cred : CompiledCredential) (signingKey : Digest) :
    Outcome ε VerifyResult := do
  let message ← stringToSign self.params.amzDate self.params.scope.scope self.canonicalHash
  let signatureHex ←
    expect (singleKnownQueryValue self.line.query.signature self.line.query.signatureCount)
  let signature ← (some <$> decodeSignature signatureHex).recover fun _ => none
  match signature with
  | none => ok (deny .signatureMismatch self.line.rawPath cred.accessKeyHash)
  | some signature =>
    if signature != C.hmacSha256 signingKey.val message then
      ok (deny .signatureMismatch self.line.rawPath cred.accessKeyHash)
    else
      ok { allowed := true, reason := .ok, path := self.line.rawPath,
           accessKey := some cred.accessKey, accessKeyHash := cred.accessKeyHash }

/-! ## What the threads share -/

/-- A state in memory, with the configuration it was compiled from. -/
structure Cell where
  settings : Settings
  credentials : List Credential
  state : State
  deriving DecidableEq

/-- The states there are, and the pointers that any thread can clone. -/
structure Memory where
  cells : List Cell
  published : List Nat
  deriving DecidableEq

/-- `Arc::new(..)`. -/
def Memory.alloc (m : Memory) (settings : Settings) (credentials : List Credential)
    (v : Verifier) : Memory :=
  { m with cells := m.cells ++ [⟨settings, credentials, v.state⟩] }

/-- A credential of a state has changed, behind its lock. -/
def Memory.write (m : Memory) (a : Nat) (cell : Cell) (accessKey : Str)
    (cred : CompiledCredential) : Memory :=
  { m with
    cells := m.cells.set a { cell with state := ((Verifier.mk cell.state).store accessKey cred).state } }

/-! ## What a thread does -/

/-- Where a thread stands. -/
inductive Phase where
  | idle
  /-- Every check but the signature has passed. -/
  | looking (call : Call) (pending : Pending)
  /-- Between the two locks. -/
  | missed (call : Call) (pending : Pending)
  | keyed (call : Call) (pending : Pending) (signingKey : Digest)
  | answered (call : Call) (result : VerifyResult)
  | panicked

/-- A thread has at most one verifier at a time: the address of a state. -/
structure Thread where
  verifier : Option Nat
  phase : Phase

/-- The credential that a thread reads: of the state that its pointer leads to. -/
structure Memory.Reads (m : Memory) (a : Nat) (accessKey : Str) (cell : Cell)
    (cred : CompiledCredential) : Prop where
  state : m.cells[a]? = some cell
  credential : cell.state.credentials.lookup accessKey = some cred

/-- One atomic step of a thread. -/
inductive ThreadStep (C : Crypto) : Memory × Thread → Memory × Thread → Prop where
  /-- `Verifier::new`. -/
  | new {m : Memory} {x : Option Nat} {settings : Settings} {credentials : List Credential}
      {v : Verifier} : Verifier.new C settings credentials = ok v →
      ThreadStep C (m, ⟨x, .idle⟩) (m.alloc settings credentials v, ⟨some m.cells.length, .idle⟩)
  | newPanics {m : Memory} {x : Option Nat} {settings : Settings} {credentials : List Credential}
      {p : Panic} : Verifier.new C settings credentials = .panic p →
      ThreadStep C (m, ⟨x, .idle⟩) (m, ⟨x, .panicked⟩)
  /-- A clone of the thread's verifier goes where every thread can clone it. -/
  | publish {m : Memory} {a : Nat} :
      ThreadStep C (m, ⟨some a, .idle⟩) ({ m with published := a :: m.published }, ⟨some a, .idle⟩)
  | clone {m : Memory} {x : Option Nat} {a : Nat} : a ∈ m.published →
      ThreadStep C (m, ⟨x, .idle⟩) (m, ⟨some a, .idle⟩)
  /-- `reload` of the thread's own verifier. -/
  | reload {m : Memory} {a : Nat} {cell : Cell} {settings : Settings}
      {credentials : List Credential} {v : Verifier} : m.cells[a]? = some cell →
      (Verifier.mk cell.state).reload C settings credentials = ok v →
      ThreadStep C (m, ⟨some a, .idle⟩)
        (m.alloc settings credentials v, ⟨some m.cells.length, .idle⟩)
  | reloadPanics {m : Memory} {a : Nat} {cell : Cell} {settings : Settings}
      {credentials : List Credential} {p : Panic} : m.cells[a]? = some cell →
      (Verifier.mk cell.state).reload C settings credentials = .panic p →
      ThreadStep C (m, ⟨some a, .idle⟩) (m, ⟨some a, .panicked⟩)
  /-- A call of `verify` that a check ends. -/
  | denied {m : Memory} {a : Nat} {cell : Cell} {call : Call} {result : VerifyResult} :
      m.cells[a]? = some cell → prepare C cell.state call = exit result →
      ThreadStep C (m, ⟨some a, .idle⟩) (m, ⟨some a, .answered call result⟩)
  /-- A call of `verify` that goes on to the signature. -/
  | prepared {m : Memory} {a : Nat} {cell : Cell} {call : Call} {pending : Pending} :
      m.cells[a]? = some cell → prepare C cell.state call = ok pending →
      ThreadStep C (m, ⟨some a, .idle⟩) (m, ⟨some a, .looking call pending⟩)
  | preparePanics {m : Memory} {a : Nat} {cell : Cell} {call : Call} {p : Panic} :
      m.cells[a]? = some cell → prepare C cell.state call = .panic p →
      ThreadStep C (m, ⟨some a, .idle⟩) (m, ⟨some a, .panicked⟩)
  /-- The section under the read lock. -/
  | hit {m : Memory} {a : Nat} {cell : Cell} {cred : CompiledCredential} {call : Call}
      {pending : Pending} {key : Digest} :
      m.Reads a pending.params.scope.accessKey cell cred →
      cred.cachedSigningKey pending.params.scope.date pending.params.scope.region
        pending.params.scope.service = some key →
      ThreadStep C (m, ⟨some a, .looking call pending⟩) (m, ⟨some a, .keyed call pending key⟩)
  | miss {m : Memory} {a : Nat} {cell : Cell} {cred : CompiledCredential} {call : Call}
      {pending : Pending} : m.Reads a pending.params.scope.accessKey cell cred →
      cred.cachedSigningKey pending.params.scope.date pending.params.scope.region
        pending.params.scope.service = none →
      ThreadStep C (m, ⟨some a, .looking call pending⟩) (m, ⟨some a, .missed call pending⟩)
  /-- The section under the write lock. -/
  | fill {m : Memory} {a : Nat} {cell : Cell} {cred cred' : CompiledCredential} {call : Call}
      {pending : Pending} {key : Digest} : m.Reads a pending.params.scope.accessKey cell cred →
      cred.fillSigningKey (ε := Empty) C pending.params.scope.date pending.params.scope.region
        pending.params.scope.service = ok (key, cred') →
      ThreadStep C (m, ⟨some a, .missed call pending⟩)
        (m.write a cell pending.params.scope.accessKey cred', ⟨some a, .keyed call pending key⟩)
  /-- A panic there poisons the lock. -/
  | fillPanics {m : Memory} {a : Nat} {cell : Cell} {cred : CompiledCredential} {call : Call}
      {pending : Pending} {p : Panic} : m.Reads a pending.params.scope.accessKey cell cred →
      cred.fillSigningKey (ε := Empty) C pending.params.scope.date pending.params.scope.region
        pending.params.scope.service = .panic p →
      ThreadStep C (m, ⟨some a, .missed call pending⟩)
        (m.write a cell pending.params.scope.accessKey
          { cred with signingCache := { cred.signingCache with poisoned := true } },
          ⟨some a, .panicked⟩)
  | answer {m : Memory} {a : Nat} {cell : Cell} {cred : CompiledCredential} {call : Call}
      {pending : Pending} {key : Digest} {result : VerifyResult} :
      m.Reads a pending.params.scope.accessKey cell cred →
      pending.finish (ε := Empty) C cred key = ok result →
      ThreadStep C (m, ⟨some a, .keyed call pending key⟩) (m, ⟨some a, .answered call result⟩)
  | answerPanics {m : Memory} {a : Nat} {cell : Cell} {cred : CompiledCredential} {call : Call}
      {pending : Pending} {key : Digest} {p : Panic} :
      m.Reads a pending.params.scope.accessKey cell cred →
      pending.finish (ε := Empty) C cred key = .panic p →
      ThreadStep C (m, ⟨some a, .keyed call pending key⟩) (m, ⟨some a, .panicked⟩)
  /-- The call has returned. -/
  | next {m : Memory} {a : Nat} {call : Call} {result : VerifyResult} :
      ThreadStep C (m, ⟨some a, .answered call result⟩) (m, ⟨some a, .idle⟩)

/-- Any number of threads, all of one program text. -/
def threads {ι : Type} (C : Crypto) (_ : ι) : Memory × Thread → Memory × Thread → Prop :=
  ThreadStep C

/-- No verifier has been made. -/
def Memory.empty : Memory := ⟨[], []⟩

def Thread.init : Thread := ⟨none, .idle⟩

end SigV4
