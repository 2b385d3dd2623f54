/-
# Kvengine.EarlyStop -- what happens when a scan callback answers `false`

The SCAN case of `ProcessRequest_` reacts to an answer of `false` by clearing the
batch and finishing it with result -1, but it does not leave its loop: the callback
is called on for the entries that follow, and the batch, deleted by now, is finished
again at the end.  So a callback that answers `false` once makes its batch answer at
least twice, whatever the store, the range and the number of workers.

`Journal.StopsEarly` is what a stopped scan should look like, and `stopsEarly_iff`
says when it does: when no callback ever stops one.
-/
import KTableFS.Kvengine.Custody

namespace KTableFS.Kvengine

open KTableFS.Theory

set_option autoImplicit false

/-- The answers the batch `id` has got. -/
def responsesIn (log : List Event) (id : Nat) : List (Option Slice × Int) :=
  log.filterMap fun
    | .effect (.respond batch data res) => if batch = id then some (data, res) else none
    | _ => none

theorem responsesIn_append (log new : List Event) (id : Nat) :
    responsesIn (log ++ new) id = responsesIn log id ++ responsesIn new id :=
  List.filterMap_append

variable {n : Nat}

/-- After a scan callback's `false` it is not called again for its batch, no request
of the batch is executed, and the batch gets one answer, with result -1. -/
def Journal.StopsEarly (j : Journal n) : Prop :=
  ∀ before after id key value, j.log = before ++ .effect (.scanned id key value false) :: after →
    (∀ key' value' answer, .effect (.scanned id key' value' answer) ∉ after) ∧
    (∀ worker req, .executed worker id req ∉ after) ∧
    responsesIn j.log id = [(none, -1)]

/-! ## The loop of a scan -/

/-- Once a callback has answered `false`, the batch has been answered with -1 and is
empty. -/
theorem scanLoop_stopped {callback : ScanCallback} :
    ∀ {entries : List (Slice × SlabT)} {fs fs' : FileSlab} {batch batch' : Batch}
      {effects : List Effect},
      Worker.scanLoop callback entries fs batch = some (fs', batch', effects) →
        batch'.id = batch.id ∧ (batch.requests = [] → batch'.requests = []) ∧
          ∀ id key value, .scanned id key value false ∈ effects →
            id = batch.id ∧ batch'.requests = [] ∧ .respond id none (-1) ∈ effects
  | [], _, _, _, _, _, scanned => by
      simp only [Worker.scanLoop, Option.some.injEq, Prod.mk.injEq] at scanned
      obtain ⟨-, rfl, rfl⟩ := scanned
      exact ⟨rfl, id, by simp⟩
  | entry :: rest, fs, fs', batch, batch', effects, scanned => by
      unfold Worker.scanLoop at scanned
      split at scanned
      · cases scanned
      · rename_i pair mid read
        simp only [Worker.deliver, Option.map_eq_some_iff, Prod.mk.injEq] at scanned
        obtain ⟨⟨_, _, later⟩, looped, rfl, rfl, rfl⟩ := scanned
        split at looped
        · rename_i goesOn
          obtain ⟨named, empty, stops⟩ := scanLoop_stopped looped
          refine ⟨named, empty, ?_⟩
          intro id key value member
          rw [if_pos goesOn] at member ⊢
          rcases List.mem_append.mp member with first | other
          · simp at first
          · obtain ⟨same, cleared, answered⟩ := stops id key value other
            exact ⟨same, cleared, List.mem_append_right _ answered⟩
        · rename_i stopped
          obtain ⟨named, empty, stops⟩ := scanLoop_stopped looped
          refine ⟨named, fun _ => empty rfl, ?_⟩
          intro id key value member
          rw [if_neg stopped] at member ⊢
          have here : .respond batch.id none (-1) ∈
              [Effect.scanned batch.id pair.1 pair.2 false,
                Batch.finishRequest ⟨batch.id, [], batch.delivered ++ [pair]⟩ none (-1)] := by
            simp [Batch.finishRequest]
          rcases List.mem_append.mp member with first | other
          · have same : id = batch.id := by
              rcases List.mem_cons.mp first with hit | miss
              · cases hit
                rfl
              · simp [Batch.finishRequest] at miss
            exact ⟨same, empty rfl, List.mem_append_left _ (same ▸ here)⟩
          · obtain ⟨same, cleared, -⟩ := stops id key value other
            exact ⟨same, cleared, List.mem_append_left _ (same ▸ here)⟩

/-! ## Every `false` brings two answers -/

/-- A batch whose scan was told to stop has been answered twice. -/
def AnsweredTwice (log : List Event) : Prop :=
  ∀ id key value, .effect (.scanned id key value false) ∈ log → 2 ≤ (responsesIn log id).length

theorem AnsweredTwice.append {log new : List Event} (old : AnsweredTwice log)
    (late : AnsweredTwice new) : AnsweredTwice (log ++ new) := by
  intro id key value member
  rw [responsesIn_append, List.length_append]
  rcases List.mem_append.mp member with before | now
  · have := old id key value before
    omega
  · have := late id key value now
    omega

/-- Events without a `false` meet it at once. -/
theorem answeredTwice_of_goesOn {new : List Event}
    (goesOn : ∀ id key value, .effect (.scanned id key value false) ∉ new) : AnsweredTwice new :=
  fun id key value member => absurd member (goesOn id key value)

theorem finishRequest_ne_scanned (batch : Batch) (data : Option Slice) (res : Int) (id : Nat)
    (key value : Slice) (answer : Bool) :
    batch.finishRequest data res ≠ .scanned id key value answer := by
  unfold Batch.finishRequest
  split <;> simp

/-- A request that is not a scan, or whose callback never stops it. -/
theorem Hands.goesOn {w w' : Worker} {id : Nat} {rest : List Request} {effects : List Effect}
    (hands : Hands w w' id rest effects) (id' : Nat) (key value : Slice) :
    .scanned id' key value false ∉ effects := by
  intro member
  cases hands with
  | queued a silent =>
      rw [silent] at member
      cases member
  | finished early batch data res shape queue named left calls =>
      rw [shape] at member
      rcases List.mem_append.mp member with call | last
      · obtain ⟨key', value', same⟩ := calls _ call
        cases same
      · exact finishRequest_ne_scanned batch data res _ _ _ _ (List.mem_singleton.mp last).symm

/-- **Processing a request answers a stopped batch twice.** -/
theorem answeredTwice_processRequest {w w' : Worker} {batch : Batch} {req : Request}
    {rest : List Request} {effects : List Effect} (worker : Nat) (shape : batch.requests = req :: rest)
    (processed : w.processRequest batch = some (w', effects)) :
    AnsweredTwice (.executed worker batch.id req :: effects.map .effect) := by
  have inEffects : ∀ id key value, .effect (.scanned id key value false) ∈
      Event.executed worker batch.id req :: effects.map .effect →
        .scanned id key value false ∈ effects := by
    intro id key value member
    simpa using member
  have quiet : req.Unstopped →
      AnsweredTwice (.executed worker batch.id req :: effects.map .effect) := fun unstopped =>
    answeredTwice_of_goesOn fun id key value member =>
      (processRequest_hands shape unstopped processed).goesOn id key value (inEffects _ _ _ member)
  cases req with
  | get key => exact quiet trivial
  | put key value => exact quiet trivial
  | update key value => exact quiet trivial
  | delete key => exact quiet trivial
  | scan minKey maxKey callback tag =>
      unfold Worker.processRequest at processed
      rw [shape] at processed
      simp only [Option.map_eq_some_iff, Prod.mk.injEq] at processed
      obtain ⟨⟨fs, batch', early⟩, looped, -, rfl⟩ := processed
      obtain ⟨named, -, stops⟩ := scanLoop_stopped looped
      intro id key value member
      have inEarly : .scanned id key value false ∈ early := by
        rcases List.mem_append.mp (inEffects id key value member) with call | last
        · exact call
        · exact absurd (List.mem_singleton.mp last).symm (finishRequest_ne_scanned _ _ _ _ _ _ _)
      obtain ⟨rfl, cleared, answered⟩ := stops id key value inEarly
      -- the answer -1 comes from the loop, the answer 0 from behind it
      have first : 1 ≤ (responsesIn (early.map .effect) batch.id).length := by
        have member : (none, -1) ∈ responsesIn (early.map .effect) batch.id :=
          List.mem_filterMap.mpr ⟨_, List.mem_map_of_mem answered, by simp⟩
        exact List.length_pos_of_mem member
      have second : responsesIn [.effect (batch'.finishRequest none 0)] batch.id = [(none, 0)] := by
        simp [responsesIn, Batch.finishRequest, cleared, named]
      have whole : responsesIn (.executed worker batch.id (.scan minKey maxKey callback tag) ::
            (early ++ [batch'.finishRequest none 0]).map .effect) batch.id =
          responsesIn (early.map .effect) batch.id ++
            responsesIn [.effect (batch'.finishRequest none 0)] batch.id := by
        rw [List.map_append, ← responsesIn_append]
        rfl
      rw [whole, second, List.length_append, List.length_singleton]
      omega

theorem answeredTwice_pop {split : Slice → Nat → Nat} {db : Db n} {i : Fin n}
    {out : Db n × List Event} (popped : db.pop split i = some out) : AnsweredTwice out.2 := by
  obtain ⟨_, _, _, _, _, _, _, _, -, -, shape, -, processed, -, rfl⟩ := Db.pop_eq_some popped
  exact answeredTwice_processRequest i shape processed

theorem answeredTwice_finish {split : Slice → Nat → Nat} {db : Db n} {i : Fin n}
    {out : Db n × List Event} (finished : db.finish split i = some out) : AnsweredTwice out.2 := by
  apply answeredTwice_of_goesOn
  intro id key value member
  rcases Db.finish_eq_some finished with ⟨_, -, rfl⟩ | ⟨_, _, _, aio', _, _, -, -, -, rfl⟩
  · cases member
  · obtain ⟨-, data, effect⟩ := finish_hands (db.nodes i).worker aio'
    simp only [List.mem_singleton, Event.effect.injEq] at member
    rw [effect] at member
    exact finishRequest_ne_scanned _ _ _ _ _ _ _ member.symm

/-! ## Runs -/

theorem AnsweredTwice.next {split : Slice → Nat → Nat} {kernel : Kernel} {j j' : Journal n}
    {act : Act n} {u : Unit} (twice : AnsweredTwice j.log)
    (taken : j.next split kernel act = some (j', u)) : AnsweredTwice j'.log := by
  cases act with
  | submit requests =>
      simp only [Journal.next, Option.map_eq_some_iff, Prod.mk.injEq] at taken
      obtain ⟨db, -, rfl, -⟩ := taken
      exact twice
  | pop i =>
      simp only [Journal.next, Option.map_eq_some_iff, Prod.mk.injEq] at taken
      obtain ⟨out, popped, rfl, -⟩ := taken
      exact twice.append (answeredTwice_pop popped)
  | flush i =>
      simp only [Journal.next, Option.map_eq_some_iff, Prod.mk.injEq] at taken
      obtain ⟨out, flushed, rfl, -⟩ := taken
      obtain ⟨_, -, rfl⟩ := Db.flush_eq_some flushed
      simpa [Journal.record] using twice
  | finish i =>
      simp only [Journal.next, Option.map_eq_some_iff, Prod.mk.injEq] at taken
      obtain ⟨out, finished, rfl, -⟩ := taken
      exact twice.append (answeredTwice_finish finished)

/-- **A scan is never stopped early.**  In every run, over any interleaving, what
should follow a callback's `false` does so only if no callback has answered it. -/
theorem stopsEarly_iff (split : Slice → Nat → Nat) (kernel : Kernel) (n : Nat) (workDir : String)
    (pages : Nat) (junk : Memory) {acts : List (Act n)} {j : Journal n} {outs : List Unit}
    (ran : Run.run (Journal.next split kernel) (.new n workDir pages junk) acts = some (j, outs)) :
    j.StopsEarly ↔ ∀ id key value, .effect (.scanned id key value false) ∉ j.log := by
  have preserved : ∀ (j : Journal n) (act : Act n) (j' : Journal n) (u : Unit), AnsweredTwice j.log →
      True → j.next split kernel act = some (j', u) → AnsweredTwice j'.log :=
    fun j act j' u twice _ taken => twice.next taken
  have start : AnsweredTwice (Journal.new n workDir pages junk).log :=
    answeredTwice_of_goesOn (by simp [Journal.new])
  have twice := Run.invariant preserved start (.of_forall fun _ _ => trivial) ran
  constructor
  · intro stops id key value member
    obtain ⟨before, after, split⟩ := List.append_of_mem member
    have once := (stops before after id key value split).2.2
    have := twice id key value member
    rw [once] at this
    simp at this
  · intro goesOn before after id key value split
    exact absurd (split ▸ List.mem_append_right _ (List.mem_cons_self ..)) (goesOn id key value)

theorem stopsEarly_iff_example :
    ∃ (j : Journal 1) (outs : List Unit),
      Run.run (Journal.next (fun _ _ => 0) .inOrder) (.new 1 "db" 2 fun _ => 0)
        [.submit [.put [1] [2]], .pop 0, .flush 0, .finish 0, .finish 0,
          .submit [.scan [] [9] (fun _ => true) 0], .pop 0] = some (j, outs) ∧
      (j.StopsEarly ↔ ∀ id key value, .effect (.scanned id key value false) ∉ j.log) := by
  have ends : (Run.run (Journal.next (fun _ _ => 0) .inOrder) (.new 1 "db" 2 fun _ => 0)
      [.submit [.put [1] [2]], .pop 0, .flush 0, .finish 0, .finish 0,
        .submit [.scan [] [9] (fun _ => true) 0], .pop 0]).isSome := by
    decide +kernel
  obtain ⟨⟨j, outs⟩, ran⟩ := Option.isSome_iff_exists.mp ends
  exact ⟨j, outs, ran, stopsEarly_iff _ .inOrder 1 "db" 2 (fun _ => 0) ran⟩

/-- The scan of batch 2 has stopped. -/
def stopsScan : Event → Bool
  | .effect (.scanned 2 _ _ false) => true
  | _ => false

/-- One worker, two stored keys, a callback that stops at the first: it is called for
the second, and the batch is answered three times. -/
theorem stopsEarly_fails :
    ¬ ∀ (acts : List (Act 1)) (j : Journal 1) (outs : List Unit),
      Run.run (Journal.next (fun _ _ => 0) .inOrder) (.new 1 "db" 2 fun _ => 0) acts = some (j, outs) →
        j.StopsEarly := by
  intro claim
  let acts : List (Act 1) :=
    [.submit [.put [1] [2]], .submit [.put [3] [4]], .pop 0, .pop 0, .flush 0, .finish 0, .finish 0,
      .finish 0, .submit [.scan [] [9] (fun _ => false) 0], .pop 0]
  have ends : (Run.run (Journal.next (fun _ _ => 0) .inOrder) (.new 1 "db" 2 fun _ => 0) acts).map
      (fun out => responsesIn out.1.log 2) = some [(none, -1), (none, -1), (none, 0)] := by
    decide +kernel
  have flagged : (Run.run (Journal.next (fun _ _ => 0) .inOrder) (.new 1 "db" 2 fun _ => 0) acts).map
      (fun out => out.1.log.any stopsScan) = some true := by
    decide +kernel
  obtain ⟨⟨j, outs⟩, ran, responses⟩ := Option.map_eq_some_iff.mp ends
  have stopped : ∃ key value, .effect (.scanned 2 key value false) ∈ j.log := by
    rw [ran, Option.map_some, Option.some.injEq, List.any_eq_true] at flagged
    obtain ⟨event, member, hit⟩ := flagged
    unfold stopsScan at hit
    split at hit
    · exact ⟨_, _, member⟩
    · cases hit
  obtain ⟨key, value, member⟩ := stopped
  obtain ⟨before, after, split⟩ := List.append_of_mem member
  have once := (claim acts j outs ran before after 2 key value split).2.2
  rw [once] at responses
  simp at responses

end KTableFS.Kvengine
