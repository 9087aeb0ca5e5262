import Cdr.Proofs.Lasting
import Cdr.Proofs.Stability

/-! Key buffers that are used again.  A support writes all its keys in one buffer, which keeps its
capacity, and whatever a key or half a key has left in it, from one call to the next.  Its answers
are those of the registry, which takes a new buffer for each key. -/

namespace Cdr

/-- What is asked of a type, and what happens to its registry in between. -/
inductive Request where
  | key (v : Value)
  | keyHash (v : Value)
  | event (event : Registry.Event)

/-- What is answered to a request for a key or a keyhash. -/
inductive Answer where
  | key (outcome : Except Fault (List UInt8))
  | keyHash (outcome : Except Fault KeyHash)
deriving DecidableEq

namespace Registry

/-- The registry after a type of it is used, so that the size of its longest key is kept. -/
def touch (r : Registry) (h : Handle) : Registry :=
  match r.checkHandle h with
  | .ok _ => r.step (.use h.id)
  | .error _ => r

theorem Steady.touch {r : Registry} (hr : r.Steady) (h : Handle) : (r.touch h).Steady := by
  unfold Registry.touch
  split
  · exact (hr.step _).steady
  · exact hr

/-- The answers to a number of requests, each key written in a new buffer. -/
def answers (r : Registry) (h : Handle) : List Request → List Answer
  | [] => []
  | .key v :: requests => .key (r.key h v) :: (r.touch h).answers h requests
  | .keyHash v :: requests => .keyHash (r.keyHash h v) :: (r.touch h).answers h requests
  | .event event :: requests => (r.step event).answers h requests

end Registry

namespace Support

/-- The answers to a number of requests, all keys written in the buffer of the support. -/
def answers (r : Registry) (s : Support) : List Request → List Answer
  | [] => []
  | .key v :: requests =>
    .key (s.key r v).1 :: (s.key r v).2.answers (r.touch s.handle) requests
  | .keyHash v :: requests =>
    .keyHash (s.keyHash r v).1 :: (s.keyHash r v).2.answers (r.touch s.handle) requests
  | .event event :: requests => s.answers (r.step event) requests

section Calls

variable {α : Type} {r : Registry}

theorem onKeyBuffer_fst (s : Support) (step : Coding α) :
    (s.onKeyBuffer step).1 = step.outcome s.keyBuffer := by
  unfold onKeyBuffer Coding.outcome
  cases step s.keyBuffer <;> rfl

/-- Whether a call succeeds or fails halfway, the support stays one of its type. -/
theorem handle_onKeyBuffer (s : Support) (step : Coding α) :
    (s.onKeyBuffer step).2.handle = s.handle := by
  unfold onKeyBuffer
  cases step s.keyBuffer <;> rfl

/-- A key is the one that the registry gives, whatever the buffer holds. -/
theorem key_eq (hr : r.Sound) (s : Support) (v : Value) : (s.key r v).1 = r.key s.handle v := by
  rw [key, onKeyBuffer_fst, Registry.key, Registry.onNewBuffer_eq]
  exact hr.uniform_writePaddedKey s.handle v _ _

/-- A keyhash is the one that the registry gives, whatever the buffer holds. -/
theorem keyHash_eq (hr : r.Sound) (s : Support) (v : Value) :
    (s.keyHash r v).1 = r.keyHash s.handle v := by
  rw [keyHash, onKeyBuffer_fst, Registry.keyHash, Registry.onNewBuffer_eq]
  exact hr.uniform_writeKeyHash s.handle v _ _

end Calls

/-- One call after the other, a support answers as a registry does. -/
theorem answers_eq_of_steady {r : Registry} (hr : r.Steady) (s : Support)
    (requests : List Request) : s.answers r requests = r.answers s.handle requests := by
  induction requests generalizing r s with
  | nil => rfl
  | cons request requests ih =>
    have htouch := hr.touch s.handle
    cases request with
    | key v =>
      have hhandle : (s.key r v).2.handle = s.handle := s.handle_onKeyBuffer _
      rw [answers, Registry.answers, ih htouch, hhandle, s.key_eq hr.sound]
    | keyHash v =>
      have hhandle : (s.keyHash r v).2.handle = s.handle := s.handle_onKeyBuffer _
      rw [answers, Registry.answers, ih htouch, hhandle, s.keyHash_eq hr.sound]
    | event event => exact ih (hr.step event).steady s

/-- Whatever has happened to a registry and to the buffer of a support, and whatever happens between
its calls, every key and every keyhash that it gives, or the fault in its place, is what the
registry gives with a new buffer at that moment. -/
theorem answers_eq (config : Config) (events : List Registry.Event) (s : Support)
    (requests : List Request) :
    let r := Registry.after { config := config } events
    s.answers r requests = r.answers s.handle requests :=
  answers_eq_of_steady (Registry.steady_after config events) s requests

/-- A reading whose union is missing, so that its key stops behind the sensor. -/
def half : Value :=
  .struct
    [("kind", .null), ("sensor", .struct [("id", .integer ⟨.int32, 770, by decide⟩)])]

/-- A key is asked for before the type can be used, then one that stops halfway and leaves the
number of another sensor in the buffer, and then one that has the buffer after it. -/
theorem answers_half :
    let r := Registry.after { } [.register Registry.reading]
    let s : Support := .new r ⟨0, "Reading"⟩
    (s.key (r.step (.register Registry.sensor)) half).2.keyBuffer.toList = [3, 2] ∧
      s.answers r [.key Registry.sample, .event (.register Registry.sensor), .key half,
          .key Registry.sample] =
        [.key (.error (Cause.unresolved "Reading" ["Sensor"]).fault),
          .key (.error ((Cause.mismatch "union 'Reading'" "null").fault.inField "kind")),
          .key (.ok [1, 2, 0, 0, 0, 0, 0, 0, 0, 0, 0, 0, 0, 0, 0, 0])] :=
  ⟨by decide, (answers_eq { } [.register Registry.reading] _ _).trans (by decide)⟩

end Support

end Cdr
