/-
# Kvengine.Rounds -- rounds of single-request batches, and sessions of rounds

`Worker.serve w reqs` is one round over batches that hold one request each; the
batch of a request is named by the request's position in the round.  A round in
progress is a `Taking`: the worker, the requests taken so far and the effects so
far.  `RoundOk Ok` asks `Ok` of every request at the worker it is taken by, in the
middle of the round, and `serve_induction` is the rule all run theorems use: what
holds before the round and survives each request holds of the worker that settles.

A `Session` adds the client's view: every request sent, in the order of
processing, with the answer it got.
-/
import KTableFS.Theory.Run
import KTableFS.Kvengine.Process

namespace KTableFS.Kvengine

open KTableFS.Theory

set_option autoImplicit false

/-! ## One round -/

/-- GET, PUT, UPDATE and DELETE, on one key. -/
def Request.isPoint : Request → Bool
  | .scan .. => false
  | _ => true

/-- One batch for each request, named by position from `n` on. -/
def batchesFrom : Nat → List Request → List Batch
  | _, [] => []
  | n, req :: rest => ⟨n, [req], []⟩ :: batchesFrom (n + 1) rest

/-- One round over single-request batches, with I/O performed in submission order. -/
def Worker.serve (w : Worker) (reqs : List Request) : Option (Worker × List Effect) :=
  w.round .inOrder (batchesFrom 0 reqs)

/-- A round in progress. -/
structure Taking where
  worker : Worker
  seen : List Request
  effects : List Effect

/-- A worker between rounds, about to take requests. -/
def Worker.taking (w : Worker) : Taking := ⟨w, [], []⟩

/-- The next request of the round is processed. -/
def Taking.next (t : Taking) (req : Request) : Option (Taking × Unit) :=
  (t.worker.processRequest ⟨t.seen.length, [req], []⟩).map fun out =>
    (⟨out.1, t.seen ++ [req], t.effects ++ out.2⟩, ())

theorem Taking.next_eq_some {t t' : Taking} {req : Request} {u : Unit}
    (taken : t.next req = some (t', u)) :
    ∃ new, Processed t.worker t.seen.length req t'.worker new ∧ t'.seen = t.seen ++ [req] ∧
      t'.effects = t.effects ++ new := by
  simp only [Taking.next, Option.map_eq_some_iff, Prod.mk.injEq] at taken
  obtain ⟨⟨w, new⟩, processed, rfl, -⟩ := taken
  exact ⟨new, Worker.processRequest_processed processed, rfl, rfl⟩

/-- Taking the requests one by one is the processing half of a round. -/
theorem Taking.run_eq (reqs : List Request) (t : Taking) :
    (Run.run Taking.next t reqs).map Prod.fst =
      (t.worker.processAll (batchesFrom t.seen.length reqs)).map fun out =>
        ⟨out.1, t.seen ++ reqs, t.effects ++ out.2⟩ := by
  induction reqs generalizing t with
  | nil => simp [batchesFrom, Worker.processAll]
  | cons req rest ih =>
      cases processed : t.worker.processRequest ⟨t.seen.length, [req], []⟩ with
      | none => simp [Run.run, Taking.next, batchesFrom, Worker.processAll, processed]
      | some out =>
          have later := ih ⟨out.1, t.seen ++ [req], t.effects ++ out.2⟩
          simp only [List.length_append, List.length_singleton] at later
          simp only [Run.run, Taking.next, batchesFrom, Worker.processAll, processed,
            Option.map_some, Option.map_map]
          rw [show (Prod.fst ∘ fun end' : Taking × List Unit => (end'.1, () :: end'.2)) = Prod.fst
            from rfl, later]
          cases out.1.processAll (batchesFrom (t.seen.length + 1) rest) with
          | none => rfl
          | some rest => simp

/-- `Ok` holds of every request of the round at the worker that processes it. -/
def RoundOk (Ok : Worker → Request → Prop) (w : Worker) (reqs : List Request) : Prop :=
  Run.Along Taking.next (fun t req => Ok t.worker req) w.taking reqs

instance {Ok : Worker → Request → Prop} [∀ w req, Decidable (Ok w req)] (w : Worker)
    (reqs : List Request) : Decidable (RoundOk Ok w reqs) :=
  inferInstanceAs (Decidable (Run.Along ..))

/-- **The rule for a round**: what survives every request holds of the worker that
settles. -/
theorem serve_induction {Ok : Worker → Request → Prop} {Inv : Taking → Prop}
    (step : ∀ {t t' : Taking} {req : Request} {new : List Effect}, Inv t → Ok t.worker req →
      Processed t.worker t.seen.length req t'.worker new → t'.seen = t.seen ++ [req] →
      t'.effects = t.effects ++ new → Inv t')
    {w w' : Worker} {reqs : List Request} {effects : List Effect} (start : Inv w.taking)
    (ok : RoundOk Ok w reqs) (served : w.serve reqs = some (w', effects)) :
    ∃ t, Inv t ∧ t.seen = reqs ∧ w' = (t.worker.settle .inOrder).1 ∧
      effects = t.effects ++ (t.worker.settle .inOrder).2 := by
  simp only [Worker.serve, Worker.round, Option.map_eq_some_iff, Prod.mk.injEq] at served
  obtain ⟨⟨mid, early⟩, processed, rfl, rfl⟩ := served
  have ran := Taking.run_eq reqs w.taking
  rw [show w.taking.worker = w from rfl, show w.taking.seen = [] from rfl, List.length_nil,
    processed] at ran
  simp only [Option.map_some, Option.map_eq_some_iff] at ran
  obtain ⟨⟨final, outs⟩, ran, shape⟩ := ran
  have preserved : ∀ t req t' u, Inv t → Ok t.worker req → Taking.next t req = some (t', u) →
      Inv t' := by
    intro t req t' u inv okHere taken
    obtain ⟨new, processed, seen, effects⟩ := Taking.next_eq_some taken
    exact step inv okHere processed seen effects
  have holds := Run.invariant preserved start ok ran
  dsimp only at shape
  subst shape
  exact ⟨_, holds, rfl, rfl, rfl⟩

/-! ## Sessions -/

/-- The answer the batch named `id` gets: its data and its result code. -/
def answerTo (id : Nat) (effects : List Effect) : Option (Option Slice × Int) :=
  effects.findSome? fun effect =>
    match effect with
    | .respond batch data res => if batch = id then some (data, res) else none
    | _ => none

/-- A worker and what its clients have sent it, with the answers. -/
structure Session where
  worker : Worker
  log : List (Request × Option (Option Slice × Int))

/-- The requests of a round with the answers among its effects. -/
def answered (reqs : List Request) (effects : List Effect) :
    List (Request × Option (Option Slice × Int)) :=
  reqs.mapIdx fun i req => (req, answerTo i effects)

def Session.next (s : Session) (reqs : List Request) : Option (Session × Unit) :=
  (s.worker.serve reqs).map fun out => (⟨out.1, s.log ++ answered reqs out.2⟩, ())

theorem respond_of_answerTo {id : Nat} {effects : List Effect} {data : Option Slice} {res : Int}
    (answer : answerTo id effects = some (data, res)) : .respond id data res ∈ effects := by
  obtain ⟨effect, member, hit⟩ := List.exists_of_findSome?_eq_some answer
  cases effect with
  | respond batch data' res' =>
      simp only at hit
      split at hit
      · rename_i same
        simp only [Option.some.injEq, Prod.mk.injEq] at hit
        obtain ⟨rfl, rfl⟩ := hit
        exact same ▸ member
      · cases hit
  | submit batch => cases hit
  | scanned batch key value answer => cases hit

theorem answerTo_isSome {id : Nat} {effects : List Effect} {data : Option Slice} {res : Int}
    (member : .respond id data res ∈ effects) : ∃ answer, answerTo id effects = some answer := by
  have found : (answerTo id effects).isSome := by
    rw [answerTo, List.findSome?_isSome_iff]
    exact ⟨_, member, by simp⟩
  exact Option.isSome_iff_exists.mp found

end KTableFS.Kvengine
