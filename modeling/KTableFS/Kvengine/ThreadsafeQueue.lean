/-
# Kvengine.ThreadsafeQueue -- the queue between the threads

`ThreadsafeQueue` is `kvengine::ThreadsafeQueue` with its mutex and its condition variable, and
the place each thread is at in its code (`Pc`): waiting for `m_`, inside the critical section
before each of its statements, asleep on `data_cond`, about to unlock.  A step is one statement
of one thread, and any interleaving of steps is a run.  A thread asleep wakes when it is
notified, or for no reason; which of several sleepers `notify_one` wakes is open.

* `queue_linearizable`: the threads see the calls and returns of a queue whose operations
  happen at once, which is how `Db` uses it.
* `queue_progress`: with one thread that waits, as a worker does, no wakeup is lost.  Some thread
  in a call can go on, or the only one is the waiting one, and the queue is empty.
-/
import KTableFS.Theory.Atomic
import KTableFS.Theory.Potential
import Mathlib.Algebra.BigOperators.Group.Finset.Basic
import Mathlib.Data.Fintype.BigOperators

namespace KTableFS.Kvengine

open KTableFS.Theory

set_option autoImplicit false

namespace ThreadsafeQueue

inductive Call (α : Type) where
  | push (data : α)
  | waitAndPop
  | waitData
  | tryPop
  | empty

/-- What a call returns; `missed` is the `false` of `TryPop`. -/
inductive Result (α : Type) where
  | done
  | data (data : α)
  | missed
  | isEmpty (answer : Bool)

/-- What the threads see of a step. -/
abbrev Shown (θ α : Type) := List (Atomic.Event θ (Call α) (Result α))

/-- Where a thread is in the code. -/
inductive Pc (α : Type) where
  | idle
  /-- At `lock(m_)`, or waking up. -/
  | locking (call : Call α)
  /-- In the critical section, before its first statement. -/
  | locked (call : Call α)
  /-- In `data_cond.wait`. -/
  | waiting (call : Call α)
  /-- Before `notify_one()`. -/
  | pushed
  /-- Before `queue_.front()`. -/
  | reading (call : Call α)
  /-- Before `queue_.pop()`. -/
  | popping (call : Call α) (data : α)
  /-- At the end of the critical section. -/
  | unlocking (res : Result α)

/-- The thread has the mutex. -/
def Pc.holds {α : Type} : Pc α → Bool
  | .idle | .locking _ | .waiting _ => false
  | .locked _ | .pushed | .reading _ | .popping .. | .unlocking _ => true

def Pc.isWaiting {α : Type} : Pc α → Bool
  | .waiting _ => true
  | _ => false

/-- A thread that is woken goes for the mutex. -/
def Pc.awake {α : Type} : Pc α → Pc α
  | .waiting call => .locking call
  | pc => pc

structure State (θ α : Type) where
  queue : List α
  /-- The thread that holds `m_`. -/
  owner : Option θ
  /-- The threads asleep on `data_cond`. -/
  waiters : List θ
  pc : θ → Pc α

inductive Act (θ α : Type) where
  | call (t : θ) (call : Call α)
  | lock (t : θ)
  /-- The next statement of the critical section. -/
  | run (t : θ)
  /-- `notify_one()` wakes `w`, if anybody is asleep. -/
  | notify (t w : θ)
  /-- A spurious wakeup. -/
  | wake (w : θ)
  | unlock (t : θ)

variable {θ α : Type} [DecidableEq θ]

namespace State

def new : State θ α := ⟨[], none, [], fun _ => .idle⟩

def goto (s : State θ α) (t : θ) (pc : Pc α) : State θ α := { s with pc := Function.update s.pc t pc }

/-- `data_cond.wait(lock)`: the mutex is given up. -/
def sleep (s : State θ α) (t : θ) (call : Call α) : State θ α :=
  { s.goto t (.waiting call) with owner := none, waiters := t :: s.waiters }

def rouse (s : State θ α) (w : θ) : State θ α :=
  { s.goto w (s.pc w).awake with waiters := s.waiters.erase w }

/-- A statement of the critical section. -/
def run (s : State θ α) (t : θ) : Option (State θ α) :=
  match s.pc t with
  | .locked (.push data) => some { s.goto t .pushed with queue := s.queue ++ [data] }
  | .locked .waitAndPop =>
      if s.queue.isEmpty then some (s.sleep t .waitAndPop) else some (s.goto t (.reading .waitAndPop))
  | .locked .waitData =>
      if s.queue.isEmpty then some (s.sleep t .waitData) else some (s.goto t (.unlocking .done))
  | .locked .tryPop =>
      if s.queue.isEmpty then some (s.goto t (.unlocking .missed)) else some (s.goto t (.reading .tryPop))
  | .locked .empty => some (s.goto t (.unlocking (.isEmpty s.queue.isEmpty)))
  | .reading call =>
      match s.queue with
      | [] => none
      | data :: _ => some (s.goto t (.popping call data))
  | .popping _ data =>
      match s.queue with
      | [] => none
      | _ :: rest => some { s.goto t (.unlocking (.data data)) with queue := rest }
  | _ => none

def step (s : State θ α) : Act θ α → Option (State θ α × Shown θ α)
  | .call t call =>
      match s.pc t with
      | .idle => some (s.goto t (.locking call), [.call t call])
      | _ => none
  | .lock t =>
      match s.pc t, s.owner with
      | .locking call, none => some ({ s.goto t (.locked call) with owner := some t }, [])
      | _, _ => none
  | .run t => (s.run t).map fun s => (s, [])
  | .notify t w =>
      match s.pc t with
      | .pushed =>
          if s.waiters.isEmpty then some (s.goto t (.unlocking .done), [])
          else if w ∈ s.waiters then some ((s.rouse w).goto t (.unlocking .done), [])
          else none
      | _ => none
  | .wake w => if w ∈ s.waiters then some (s.rouse w, []) else none
  | .unlock t =>
      match s.pc t with
      | .unlocking res => some ({ s.goto t .idle with owner := none }, [.ret t res])
      | _ => none

end State

/-! ## The queue whose operations happen at once -/

def serve (queue : List α) : Call α → Option (List α × Result α)
  | .push data => some (queue ++ [data], .done)
  | .waitAndPop => queue.head?.map fun data => (queue.tail, .data data)
  | .waitData => if queue.isEmpty then none else some (queue, .done)
  | .tryPop =>
      match queue with
      | [] => some ([], .missed)
      | data :: rest => some (rest, .data data)
  | .empty => some (queue, .isEmpty queue.isEmpty)

/-- Has the call of a thread taken effect? -/
def Pc.status : Pc α → Atomic.Status (Call α) (Result α)
  | .idle => .idle
  | .locking call | .locked call | .waiting call | .reading call | .popping call _ => .pending call
  | .pushed => .done .done
  | .unlocking res => .done res

def State.view (s : State θ α) : Atomic.Object θ (List α) (Call α) (Result α) :=
  ⟨s.queue, fun t => (s.pc t).status⟩

/-- A step a call takes by itself. -/
def Act.internal : Act θ α → Bool
  | .lock _ | .run _ | .notify .. | .unlock _ => true
  | .call .. | .wake _ => false

/-- How many steps an action may be followed by: a call by its own, and a wakeup by those that send
the thread to sleep again. -/
def Act.gain : Act θ α → Nat
  | .call .. => 9
  | .wake _ => 5
  | .lock _ | .run _ | .notify .. | .unlock _ => 0

/-! ## What the mutex keeps -/

/-- `WaitAndPop` or `TryPop`. -/
def Call.takes : Call α → Bool
  | .waitAndPop | .tryPop => true
  | .push _ | .waitData | .empty => false

/-- `WaitAndPop` or `WaitData`. -/
def Call.waits : Call α → Bool
  | .waitAndPop | .waitData => true
  | .push _ | .tryPop | .empty => false

/-- What is left of a call when nothing holds it up; a push also wakes a thread that has to get the
mutex again. -/
def Call.work : Call α → Nat
  | .push _ => 4
  | .waitAndPop | .waitData | .tryPop | .empty => 0

def Pc.rank : Pc α → Nat
  | .idle => 0
  | .locking call => 5 + call.work
  | .locked call => 4 + call.work
  | .waiting call => call.work
  | .pushed => 7
  | .reading _ => 3
  | .popping .. => 2
  | .unlocking _ => 1

/-- What a thread inside the critical section relies on. -/
def Pc.Fits (queue : List α) : Pc α → Prop
  | .reading call => call.takes ∧ queue ≠ []
  | .popping call data => call.takes ∧ queue.head? = some data
  | _ => True

theorem Pc.Fits.of_outside {queue : List α} {pc : Pc α} (outside : pc.holds = false) : pc.Fits queue := by
  cases pc with
  | reading | popping => exact absurd outside.symm Bool.false_ne_true
  | _ => trivial

theorem Pc.not_waiting {pc : Pc α} (holds : pc.holds = true) : pc.isWaiting = false := by
  cases pc with
  | waiting => exact absurd holds Bool.false_ne_true
  | _ => rfl

/-- What `m_` and the list of the sleepers say of where the threads are. -/
structure State.Inv (s : State θ α) : Prop where
  owner : ∀ t, s.owner = some t ↔ (s.pc t).holds = true
  waiters : ∀ t, t ∈ s.waiters ↔ (s.pc t).isWaiting = true
  nodup : s.waiters.Nodup
  fits : ∀ t, (s.pc t).Fits s.queue

namespace State

variable {s s' : State θ α} {a : Act θ α} {t w : θ} {shown : Shown θ α}

theorem goto_pc_of_ne {u : θ} (pc : Pc α) (ne : u ≠ t) : (s.goto t pc).pc u = s.pc u :=
  Function.update_of_ne ne ..

omit [DecidableEq θ] in
theorem Inv.new : (new : State θ α).Inv :=
  { owner := fun t => by simp [State.new, Pc.holds]
    waiters := fun t => by simp [State.new, Pc.isWaiting]
    nodup := List.nodup_nil
    fits := fun t => trivial }

omit [DecidableEq θ] in
/-- Nobody else is in the critical section. -/
theorem Inv.alone (inv : s.Inv) (holds : (s.pc t).holds = true) {u : θ} (ne : u ≠ t) :
    (s.pc u).holds = false := by
  have mine := (inv.owner t).mpr holds
  rw [← Bool.not_eq_true, ← inv.owner u, mine]
  exact fun same => ne (Option.some.inj same).symm

omit [DecidableEq θ] in
theorem Inv.awake (inv : s.Inv) (holds : (s.pc t).holds = true) : t ∉ s.waiters := by
  rw [inv.waiters, Pc.not_waiting holds]
  exact Bool.false_ne_true

/-- Thread `t` goes elsewhere, and the others see nothing they rely on change. -/
theorem Inv.goto (inv : s.Inv) {pc : Pc α} {queue : List α} {owner : Option θ} {waiters : List θ}
    (owns : owner = some t ↔ pc.holds = true) (owner' : ∀ u ≠ t, owner = some u ↔ s.owner = some u)
    (waits : t ∈ waiters ↔ pc.isWaiting = true) (waiters' : ∀ u ≠ t, u ∈ waiters ↔ u ∈ s.waiters)
    (nodup : waiters.Nodup) (fits : pc.Fits queue) (fits' : ∀ u ≠ t, (s.pc u).Fits queue) :
    State.Inv ⟨queue, owner, waiters, Function.update s.pc t pc⟩ := by
  refine ⟨fun u => ?_, fun u => ?_, nodup, fun u => ?_⟩
  all_goals dsimp only
  all_goals rcases eq_or_ne u t with rfl | ne
  · rw [Function.update_self]
    exact owns
  · rw [Function.update_of_ne ne, owner' u ne]
    exact inv.owner u
  · rw [Function.update_self]
    exact waits
  · rw [Function.update_of_ne ne, waiters' u ne]
    exact inv.waiters u
  · rw [Function.update_self]
    exact fits
  · rw [Function.update_of_ne ne]
    exact fits' u ne

/-- A statement of the critical section, with what it does to the queue. -/
theorem Inv.moved (inv : s.Inv) (holds : (s.pc t).holds = true) {pc : Pc α} {queue : List α}
    (keeps : pc.holds = true) (fits : pc.Fits queue) : { s.goto t pc with queue := queue }.Inv := by
  have out := inv.awake holds
  refine inv.goto ?_ (fun u ne => Iff.rfl) ?_ (fun u ne => Iff.rfl) inv.nodup fits fun u ne => ?_
  · exact iff_of_true ((inv.owner t).mpr holds) keeps
  · exact iff_of_false out (Bool.eq_false_iff.mp (Pc.not_waiting keeps))
  · exact .of_outside (inv.alone holds ne)

theorem Inv.sleep (inv : s.Inv) (holds : (s.pc t).holds = true) (call : Call α) : (s.sleep t call).Inv := by
  have out := inv.awake holds
  have mine := (inv.owner t).mpr holds
  refine inv.goto ?_ (fun u ne => ?_) ?_ (fun u ne => ?_) (List.nodup_cons.mpr ⟨out, inv.nodup⟩) trivial
    fun u ne => inv.fits u
  · exact iff_of_false (Option.some_ne_none t).symm Bool.false_ne_true
  · rw [mine]
    exact iff_of_false (Option.some_ne_none u).symm fun same => ne (Option.some.inj same).symm
  · exact iff_of_true (List.mem_cons_self ..) rfl
  · exact ⟨fun member => (List.mem_cons.mp member).resolve_left ne, List.mem_cons_of_mem t⟩

theorem Inv.unlock (inv : s.Inv) (holds : (s.pc t).holds = true) :
    { s.goto t .idle with owner := none }.Inv := by
  have out := inv.awake holds
  have mine := (inv.owner t).mpr holds
  refine inv.goto ?_ (fun u ne => ?_) ?_ (fun u ne => Iff.rfl) inv.nodup trivial fun u ne => inv.fits u
  · exact iff_of_false (Option.some_ne_none t).symm Bool.false_ne_true
  · rw [mine]
    exact iff_of_false (Option.some_ne_none u).symm fun same => ne (Option.some.inj same).symm
  · exact iff_of_false out Bool.false_ne_true

theorem Inv.lock (inv : s.Inv) {call : Call α} (locking : s.pc t = .locking call) (free : s.owner = none) :
    { s.goto t (.locked call) with owner := some t }.Inv := by
  refine inv.goto ?_ (fun u ne => ?_) ?_ (fun u ne => Iff.rfl) inv.nodup trivial fun u ne => inv.fits u
  · exact iff_of_true rfl rfl
  · rw [free]
    exact iff_of_false (fun same => ne (Option.some.inj same).symm) (Option.some_ne_none u).symm
  · refine (inv.waiters t).trans ?_
    rw [locking]
    exact Iff.rfl

theorem Inv.call (inv : s.Inv) (idle : s.pc t = .idle) (call : Call α) : (s.goto t (.locking call)).Inv := by
  refine inv.goto ?_ (fun u ne => Iff.rfl) ?_ (fun u ne => Iff.rfl) inv.nodup trivial fun u ne => inv.fits u
  · rw [inv.owner t, idle]
    exact Iff.rfl
  · rw [inv.waiters t, idle]
    exact Iff.rfl

omit [DecidableEq θ] in
theorem Inv.asleep (inv : s.Inv) (member : t ∈ s.waiters) : ∃ call, s.pc t = .waiting call := by
  have waiting := (inv.waiters t).mp member
  cases pc : s.pc t with
  | waiting call => exact ⟨call, rfl⟩
  | _ =>
      rw [pc] at waiting
      exact absurd waiting Bool.false_ne_true

theorem Inv.rouse (inv : s.Inv) (member : w ∈ s.waiters) : (s.rouse w).Inv := by
  obtain ⟨call, waiting⟩ := inv.asleep member
  have awake : (s.pc w).awake = .locking call := by rw [waiting, Pc.awake]
  refine inv.goto ?_ (fun u ne => Iff.rfl) ?_ (fun u ne => List.mem_erase_of_ne ne) (inv.nodup.erase w) ?_
    fun u ne => inv.fits u
  · refine (inv.owner w).trans ?_
    rw [awake, waiting]
    exact Iff.rfl
  · rw [awake]
    exact iff_of_false inv.nodup.not_mem_erase Bool.false_ne_true
  · rw [awake]
    trivial

/-- Who notifies is not whom it wakes. -/
theorem Inv.pushed_rouse (inv : s.Inv) (pushed : s.pc t = .pushed) (member : w ∈ s.waiters) :
    (s.rouse w).pc t = .pushed := by
  have ne : t ≠ w := by
    rintro rfl
    exact inv.awake (by rw [pushed, Pc.holds]) member
  exact (goto_pc_of_ne _ ne).trans pushed

/-! ## Every statement is a step of the abstract queue, or none -/

theorem view_goto {pc : Pc α} {queue : List α} {owner : Option θ} {waiters : List θ} :
    State.view ⟨queue, owner, waiters, Function.update s.pc t pc⟩ =
      ⟨queue, Function.update s.view.status t pc.status⟩ := by
  rw [State.view, Atomic.Object.mk.injEq]
  exact ⟨rfl, Function.comp_update Pc.status s.pc t pc⟩

theorem view_still {pc : Pc α} {owner : Option θ} {waiters : List θ} (same : pc.status = (s.pc t).status) :
    State.view ⟨s.queue, owner, waiters, Function.update s.pc t pc⟩ = s.view := by
  rw [view_goto, same]
  exact congrArg (Atomic.Object.mk s.queue) (Function.update_eq_self t s.view.status)

theorem view_sleep {call : Call α} (pending : (s.pc t).status = .pending call) :
    (s.sleep t call).view = s.view :=
  view_still (s := s) (t := t) pending.symm

theorem view_effect {call : Call α} {res : Result α} {pc : Pc α} {queue : List α} {owner : Option θ}
    {waiters : List θ} (pending : (s.pc t).status = .pending call)
    (served : serve s.queue call = some (queue, res)) (done : pc.status = .done res) :
    s.view.step serve (.effect t) =
      some (State.view ⟨queue, owner, waiters, Function.update s.pc t pc⟩, []) := by
  rw [view_goto, done]
  exact Atomic.step_effect pending served

/-- What a statement of the critical section can do: send the thread to sleep, show nothing, or be
where the call takes effect. -/
inductive Ran (s : State θ α) (t : θ) : State θ α → Prop
  | slept (call : Call α) (locked : s.pc t = .locked call) (waits : call.waits = true)
      (empty : s.queue = []) : Ran s t (s.sleep t call)
  | silent (pc : Pc α) (same : pc.status = (s.pc t).status) (keeps : pc.holds = true)
      (fits : pc.Fits s.queue) (less : pc.rank < (s.pc t).rank) : Ran s t (s.goto t pc)
  | effect (call : Call α) (res : Result α) (pc : Pc α) (queue : List α)
      (pending : (s.pc t).status = .pending call) (served : serve s.queue call = some (queue, res))
      (done : pc.status = .done res) (keeps : pc.holds = true) (fits : pc.Fits queue)
      (less : pc.rank < (s.pc t).rank) (full : pc = .pushed ∨ (queue ≠ [] → s.queue ≠ [])) :
      Ran s t { s.goto t pc with queue := queue }

theorem ran_locked {call : Call α} (locked : s.pc t = .locked call)
    (taken : s.run t = some s') : Ran s t s' := by
  have pending : (s.pc t).status = .pending call := by rw [locked, Pc.status]
  rw [run, locked] at taken
  cases call with
  | push data =>
      cases taken
      exact .effect _ _ .pushed _ pending rfl rfl rfl trivial (by simp [locked, Pc.rank, Call.work]) (.inl rfl)
  | waitAndPop =>
      cases queue : s.queue with
      | nil =>
          simp only [queue, List.isEmpty_nil, if_true, Option.some.injEq] at taken
          exact taken ▸ .slept _ locked rfl queue
      | cons data rest =>
          simp only [queue, List.isEmpty_cons, Bool.false_eq_true, if_false, Option.some.injEq] at taken
          have fits : (Pc.reading (.waitAndPop : Call α)).Fits s.queue :=
            ⟨rfl, ne_of_eq_of_ne queue (List.cons_ne_nil _ _)⟩
          exact taken ▸ .silent _ pending.symm rfl fits (by simp [locked, Pc.rank, Call.work])
  | waitData =>
      cases queue : s.queue with
      | nil =>
          simp only [queue, List.isEmpty_nil, if_true, Option.some.injEq] at taken
          exact taken ▸ .slept _ locked rfl queue
      | cons data rest =>
          simp only [queue, List.isEmpty_cons, Bool.false_eq_true, if_false, Option.some.injEq] at taken
          have served : serve s.queue .waitData = some (s.queue, .done) := by
            rw [queue, serve, List.isEmpty_cons, if_neg Bool.false_ne_true]
          exact taken ▸ .effect _ _ _ _ pending served rfl rfl trivial (by simp [locked, Pc.rank, Call.work])
            (.inr id)
  | tryPop =>
      cases queue : s.queue with
      | nil =>
          simp only [queue, List.isEmpty_nil, if_true, Option.some.injEq] at taken
          have served : serve s.queue .tryPop = some (s.queue, .missed) := by rw [queue, serve]
          exact taken ▸ .effect _ _ _ _ pending served rfl rfl trivial (by simp [locked, Pc.rank, Call.work])
            (.inr id)
      | cons data rest =>
          simp only [queue, List.isEmpty_cons, Bool.false_eq_true, if_false, Option.some.injEq] at taken
          have fits : (Pc.reading (.tryPop : Call α)).Fits s.queue :=
            ⟨rfl, ne_of_eq_of_ne queue (List.cons_ne_nil _ _)⟩
          exact taken ▸ .silent _ pending.symm rfl fits (by simp [locked, Pc.rank, Call.work])
  | empty =>
      cases taken
      exact .effect _ _ _ _ pending rfl rfl rfl trivial (by simp [locked, Pc.rank, Call.work]) (.inr id)

theorem Inv.ran (inv : s.Inv) (taken : s.run t = some s') : Ran s t s' := by
  have fits := inv.fits t
  cases pc : s.pc t with
  | locked call => exact ran_locked pc taken
  | reading call =>
      rw [run, pc] at taken
      rw [pc] at fits
      obtain ⟨takes, some⟩ := fits
      cases queue : s.queue with
      | nil => exact absurd queue some
      | cons data rest =>
          simp only [queue, Option.some.injEq] at taken
          have fits : (Pc.popping call data).Fits s.queue := ⟨takes, queue ▸ rfl⟩
          exact taken ▸ .silent _ (pc ▸ rfl) rfl fits (by simp [pc, Pc.rank])
  | popping call data =>
      have pending : (s.pc t).status = .pending call := by rw [pc, Pc.status]
      rw [run, pc] at taken
      rw [pc] at fits
      obtain ⟨takes, head⟩ := fits
      cases queue : s.queue with
      | nil =>
          rw [queue] at head
          exact absurd head (Option.some_ne_none data).symm
      | cons front rest =>
          rw [queue, List.head?_cons, Option.some.injEq] at head
          subst head
          have served : serve s.queue call = some (rest, .data front) := by
            cases call with
            | waitAndPop => rw [queue, serve, List.head?_cons, Option.map_some, List.tail_cons]
            | tryPop => rw [queue, serve]
            | _ => exact absurd takes Bool.false_ne_true
          simp only [queue, Option.some.injEq] at taken
          have full : s.queue ≠ [] := ne_of_eq_of_ne queue (List.cons_ne_nil _ _)
          exact taken ▸ .effect _ _ _ _ pending served rfl rfl trivial (by simp [pc, Pc.rank]) (.inr fun _ => full)
  | idle | locking | waiting | pushed | unlocking =>
      rw [run, pc] at taken
      exact absurd taken.symm (Option.some_ne_none _)

/-- The thread is in the critical section, and not about to notify. -/
theorem run_inside (taken : s.run t = some s') :
    (s.pc t).holds = true ∧ s.pc t ≠ .pushed := by
  rw [run] at taken
  cases pc : s.pc t with
  | locked | reading | popping => exact ⟨rfl, by simp⟩
  | idle | locking | waiting | pushed | unlocking =>
      rw [pc] at taken
      exact absurd taken.symm (Option.some_ne_none _)

/-- Each statement of the critical section keeps the invariant. -/
theorem run_refines (inv : s.Inv) (taken : s.run t = some s') :
    s'.Inv ∧ (s'.view = s.view ∨ s.view.step serve (.effect t) = some (s'.view, [])) := by
  have holds := (run_inside taken).1
  cases inv.ran taken with
  | slept call locked waits empty =>
      refine ⟨inv.sleep holds call, .inl (view_sleep ?_)⟩
      rw [locked, Pc.status]
  | silent pc same keeps fits less => exact ⟨inv.moved holds keeps fits, .inl (view_still same)⟩
  | effect call res pc queue pending served done keeps fits less full =>
      exact ⟨inv.moved holds keeps fits, .inr (view_effect pending served done)⟩

/-- What the actions outside the critical section's statements do. -/
theorem step_call_eq {call : Call α} (taken : s.step (.call t call) = some (s', shown)) :
    s.pc t = .idle ∧ s' = s.goto t (.locking call) ∧ shown = [.call t call] := by
  rw [step] at taken
  split at taken
  next idle =>
    cases taken
    exact ⟨idle, rfl, rfl⟩
  next => cases taken

theorem step_lock_eq (taken : s.step (.lock t) = some (s', shown)) :
    ∃ call, s.pc t = .locking call ∧ s.owner = none ∧
      s' = { s.goto t (.locked call) with owner := some t } ∧ shown = [] := by
  rw [step] at taken
  split at taken
  next call locking free =>
    cases taken
    exact ⟨call, locking, free, rfl, rfl⟩
  next => cases taken

theorem step_run_eq (taken : s.step (.run t) = some (s', shown)) :
    s.run t = some s' ∧ shown = [] := by
  obtain ⟨s₁, ran, same⟩ := Option.map_eq_some_iff.mp taken
  cases same
  exact ⟨ran, rfl⟩

theorem step_notify_eq (taken : s.step (.notify t w) = some (s', shown)) :
    s.pc t = .pushed ∧ shown = [] ∧
      (s.waiters = [] ∧ s' = s.goto t (.unlocking .done) ∨
        w ∈ s.waiters ∧ s' = (s.rouse w).goto t (.unlocking .done)) := by
  rw [step] at taken
  split at taken
  next pushed =>
    split_ifs at taken with none member
    · cases taken
      exact ⟨pushed, rfl, .inl ⟨List.isEmpty_iff.mp none, rfl⟩⟩
    · cases taken
      exact ⟨pushed, rfl, .inr ⟨member, rfl⟩⟩
  next => cases taken

theorem step_wake_eq (taken : s.step (.wake w) = some (s', shown)) :
    w ∈ s.waiters ∧ s' = s.rouse w ∧ shown = [] := by
  rw [step] at taken
  split_ifs at taken with member
  cases taken
  exact ⟨member, rfl, rfl⟩

theorem step_unlock_eq (taken : s.step (.unlock t) = some (s', shown)) :
    ∃ res, s.pc t = .unlocking res ∧ s' = { s.goto t .idle with owner := none } ∧ shown = [.ret t res] := by
  rw [step] at taken
  split at taken
  next res unlocking =>
    cases taken
    exact ⟨res, unlocking, rfl, rfl⟩
  next => cases taken

theorem Inv.view_rouse (inv : s.Inv) (member : w ∈ s.waiters) : (s.rouse w).view = s.view := by
  obtain ⟨call, waiting⟩ := inv.asleep member
  refine view_still (s := s) (t := w) ?_
  rw [waiting, Pc.awake, Pc.status, Pc.status]

theorem step_refines (inv : s.Inv) (taken : s.step a = some (s', shown)) :
    s'.Inv ∧ (s'.view = s.view ∧ shown = [] ∨ ∃ b, s.view.step serve b = some (s'.view, shown)) := by
  cases a with
  | call t call =>
      obtain ⟨idle, rfl, rfl⟩ := step_call_eq taken
      have status : (s.pc t).status = .idle := by rw [idle, Pc.status]
      refine ⟨inv.call idle call, .inr ⟨.call t call, ?_⟩⟩
      rw [goto, view_goto]
      exact Atomic.step_call status
  | lock t =>
      obtain ⟨call, locking, free, rfl, rfl⟩ := step_lock_eq taken
      refine ⟨inv.lock locking free, .inl ⟨view_still (s := s) (t := t) ?_, rfl⟩⟩
      rw [locking, Pc.status, Pc.status]
  | run t =>
      obtain ⟨ran, rfl⟩ := step_run_eq taken
      obtain ⟨inv', still | effect⟩ := run_refines inv ran
      · exact ⟨inv', .inl ⟨still, rfl⟩⟩
      · exact ⟨inv', .inr ⟨_, effect⟩⟩
  | notify t w =>
      obtain ⟨pushed, rfl, ⟨-, rfl⟩ | ⟨member, rfl⟩⟩ := step_notify_eq taken
      · have holds : (s.pc t).holds = true := by rw [pushed, Pc.holds]
        refine ⟨inv.moved holds rfl trivial, .inl ⟨view_still (s := s) (t := t) ?_, rfl⟩⟩
        rw [pushed, Pc.status, Pc.status]
      · have pushed' := inv.pushed_rouse pushed member
        have holds : ((s.rouse w).pc t).holds = true := by rw [pushed', Pc.holds]
        refine ⟨(inv.rouse member).moved holds rfl trivial, .inl ⟨?_, rfl⟩⟩
        rw [← inv.view_rouse member]
        refine view_still (s := s.rouse w) (t := t) ?_
        rw [pushed', Pc.status, Pc.status]
  | wake w =>
      obtain ⟨member, rfl, rfl⟩ := step_wake_eq taken
      exact ⟨inv.rouse member, .inl ⟨inv.view_rouse member, rfl⟩⟩
  | unlock t =>
      obtain ⟨res, unlocking, rfl, rfl⟩ := step_unlock_eq taken
      have holds : (s.pc t).holds = true := by rw [unlocking, Pc.holds]
      have status : (s.pc t).status = .done res := by rw [unlocking, Pc.status]
      refine ⟨inv.unlock holds, .inr ⟨.ret t, ?_⟩⟩
      rw [goto, view_goto]
      exact Atomic.step_ret status

/-- **The queue is linearizable**: whatever the interleaving, what the threads see of it they could
see of a queue whose operations happen at once; only one thread is in the critical section, and
`front()` and `pop()` are never called on an empty `queue_`. -/
theorem queue_linearizable {acts : List (Act θ α)} {s : State θ α} {out : List (Shown θ α)}
    (ran : Run.run step new acts = some (s, out)) :
    (∃ effects out', Run.run (Atomic.Object.step serve) ⟨[], fun _ => .idle⟩ effects = some (s.view, out') ∧
        out'.flatten = out.flatten) ∧
      (∀ t u, (s.pc t).holds = true → (s.pc u).holds = true → t = u) ∧ ∀ t, (s.pc t).Fits s.queue := by
  obtain ⟨inv, refined⟩ := Atomic.refines (fun s a s' shown inv taken => step_refines inv taken) Inv.new ran
  refine ⟨refined, fun t u holds holds' => ?_, inv.fits⟩
  exact Option.some.inj (((inv.owner t).mpr holds).symm.trans ((inv.owner u).mpr holds'))

/-- A worker sleeps, is woken by a push, and takes the item. -/
def handover : List (Act Bool Nat) :=
  [.call true .waitAndPop, .lock true, .run true, .call false (.push 7), .lock false, .run false,
    .notify false true, .unlock false, .lock true, .run true, .run true, .run true, .unlock true]

def handoverShows : Shown Bool Nat :=
  [.call true .waitAndPop, .call false (.push 7), .ret false .done, .ret true (.data 7)]

theorem queue_linearizable_example : ∃ (s : State Bool Nat) (effects : List (Atomic.Act Bool (Call Nat)))
    (out' : List (Shown Bool Nat)),
    Run.run (Atomic.Object.step serve) ⟨[], fun _ => .idle⟩ effects = some (s.view, out') ∧
      out'.flatten = handoverShows := by
  obtain ⟨s, out, ran, shown⟩ : ∃ (s : State Bool Nat) (out : List (Shown Bool Nat)),
      Run.run step new handover = some (s, out) ∧ out.flatten = handoverShows := ⟨_, _, rfl, rfl⟩
  obtain ⟨⟨effects, out', ran', same⟩, -⟩ := queue_linearizable ran
  exact ⟨s, effects, out', ran', same.trans shown⟩

/-! ## With one thread that waits, no wakeup is lost -/

/-- Only `w` waits, and when it sleeps on a queue that is not empty somebody is about to notify it. -/
structure Awaited (w : θ) (s : State θ α) : Prop where
  single : ∀ t call, (s.pc t).status = .pending call → call.waits = true → t = w
  asleep : ∀ t ∈ s.waiters, t = w
  notified : s.queue ≠ [] → w ∈ s.waiters → ∃ u, s.pc u = .pushed

omit [DecidableEq θ] in
theorem Awaited.new (w : θ) : (new : State θ α).Awaited w :=
  { single := fun t call pending => by simp [State.new, Pc.status] at pending
    asleep := fun t member => absurd member List.not_mem_nil
    notified := fun full => absurd rfl full }

/-- A thread about to notify stays so while another one moves. -/
theorem Awaited.others (awaited : s.Awaited w) (here : s.pc t ≠ .pushed) (pc : Pc α) (full : s.queue ≠ [])
    (member : w ∈ s.waiters) : ∃ u, Function.update s.pc t pc u = .pushed := by
  obtain ⟨u, pushed⟩ := awaited.notified full member
  have ne : u ≠ t := by
    rintro rfl
    exact here pushed
  exact ⟨u, (Function.update_of_ne ne ..).trans pushed⟩

/-- The calls that are pending after a step were before it, or are made by it. -/
theorem Inv.pending (inv : s.Inv) (taken : s.step a = some (s', shown))
    {call : Call α} (pending : (s'.pc t).status = .pending call) :
    (s.pc t).status = .pending call ∨ a = .call t call := by
  obtain ⟨-, ⟨still, -⟩ | ⟨b, moved⟩⟩ := step_refines inv taken
  · exact .inl ((congrFun (congrArg Atomic.Object.status still) t).symm.trans pending)
  · refine (Atomic.step_pending moved pending).imp_right fun shows => ?_
    subst shows
    cases a with
    | call u call' =>
        obtain ⟨-, -, same⟩ := step_call_eq taken
        cases same
        rfl
    | lock u =>
        obtain ⟨call', -, -, -, none⟩ := step_lock_eq taken
        cases none
    | run u => cases (step_run_eq taken).2
    | notify u w => cases (step_notify_eq taken).2.1
    | wake w => cases (step_wake_eq taken).2.2
    | unlock u =>
        obtain ⟨res, -, -, other⟩ := step_unlock_eq taken
        cases other

/-- A statement of the critical section wakes nobody, and leaves no sleeper with an item. -/
theorem Awaited.run (inv : s.Inv) (awaited : s.Awaited w) (taken : s.run t = some s') :
    (∀ u ∈ s'.waiters, u = w) ∧ (s'.queue ≠ [] → w ∈ s'.waiters → ∃ u, s'.pc u = .pushed) := by
  have elsewhere := (run_inside taken).2
  cases inv.ran taken with
  | slept call locked waits empty =>
      have pending : (s.pc t).status = .pending call := by rw [locked, Pc.status]
      refine ⟨fun u member => ?_, fun full => absurd empty full⟩
      rcases List.mem_cons.mp member with rfl | before
      · exact awaited.single u call pending waits
      · exact awaited.asleep u before
  | silent pc same keeps fits less => exact ⟨awaited.asleep, awaited.others elsewhere pc⟩
  | effect call res pc queue pending served done keeps fits less full =>
      refine ⟨awaited.asleep, fun some member => ?_⟩
      rcases full with rfl | before
      · exact ⟨t, Function.update_self ..⟩
      · exact awaited.others elsewhere pc (before some) member

theorem Awaited.step (inv : s.Inv) (awaited : s.Awaited w)
    (only : ∀ t call, a = .call t call → call.waits = true → t = w) (taken : s.step a = some (s', shown)) :
    s'.Awaited w := by
  have single : ∀ t call, (s'.pc t).status = .pending call → call.waits = true → t = w :=
    fun t call pending waits => (inv.pending taken pending).elim
      (fun before => awaited.single t call before waits) fun made => only t call made waits
  cases a with
  | call t call =>
      obtain ⟨idle, rfl, rfl⟩ := step_call_eq taken
      refine ⟨single, awaited.asleep, awaited.others ?_ _⟩
      rw [idle]
      simp
  | lock t =>
      obtain ⟨call, locking, free, rfl, rfl⟩ := step_lock_eq taken
      refine ⟨single, awaited.asleep, awaited.others ?_ _⟩
      rw [locking]
      simp
  | run t =>
      obtain ⟨ran, rfl⟩ := step_run_eq taken
      obtain ⟨asleep, notified⟩ := awaited.run inv ran
      exact ⟨single, asleep, notified⟩
  | notify t u =>
      obtain ⟨pushed, rfl, ⟨none, rfl⟩ | ⟨member, rfl⟩⟩ := step_notify_eq taken
      · refine ⟨single, awaited.asleep, fun full member => ?_⟩
        exact absurd (none ▸ member) List.not_mem_nil
      · obtain rfl := awaited.asleep u member
        refine ⟨single, fun v member' => awaited.asleep v (List.mem_of_mem_erase member'), ?_⟩
        exact fun full member' => absurd member' inv.nodup.not_mem_erase
  | wake u =>
      obtain ⟨member, rfl, rfl⟩ := step_wake_eq taken
      obtain rfl := awaited.asleep u member
      refine ⟨single, fun v member' => awaited.asleep v (List.mem_of_mem_erase member'), ?_⟩
      exact fun full member' => absurd member' inv.nodup.not_mem_erase
  | unlock t =>
      obtain ⟨res, unlocking, rfl, rfl⟩ := step_unlock_eq taken
      refine ⟨single, awaited.asleep, awaited.others ?_ _⟩
      rw [unlocking]
      simp

/-- A thread in the critical section can go on. -/
theorem Inv.inside (inv : s.Inv) (holds : (s.pc t).holds = true) :
    ∃ a s' shown, a.internal = true ∧ s.step a = some (s', shown) := by
  have fits := inv.fits t
  cases pc : s.pc t with
  | locked call =>
      have runs : (s.run t).isSome = true := by
        rw [run, pc]
        cases call <;> cases queue : s.queue <;> rfl
      obtain ⟨s', ran⟩ := Option.isSome_iff_exists.mp runs
      exact ⟨.run t, s', [], rfl, by rw [step, ran, Option.map_some]⟩
  | reading call =>
      rw [pc] at fits
      obtain ⟨data, rest, queue⟩ := List.exists_cons_of_ne_nil fits.2
      exact ⟨.run t, _, [], rfl, by rw [step, run, pc, queue, Option.map_some]⟩
  | popping call data =>
      rw [pc] at fits
      obtain ⟨rest, queue⟩ := List.head?_eq_some_iff.mp fits.2
      exact ⟨.run t, _, [], rfl, by rw [step, run, pc, queue, Option.map_some]⟩
  | pushed =>
      cases asleep : s.waiters with
      | nil => exact ⟨.notify t t, _, [], rfl, by rw [step, pc, asleep, List.isEmpty_nil, if_pos rfl]⟩
      | cons u others =>
          have member : u ∈ s.waiters := asleep ▸ List.mem_cons_self ..
          refine ⟨.notify t u, (s.rouse u).goto t (.unlocking .done), [], rfl, ?_⟩
          rw [step, pc, if_neg (by rw [asleep, List.isEmpty_cons]; exact Bool.false_ne_true), if_pos member]
  | unlocking res => exact ⟨.unlock t, _, _, rfl, by rw [step, pc]⟩
  | idle | locking | waiting =>
      rw [pc] at holds
      exact absurd holds Bool.false_ne_true

/-- While anybody is in a call some thread can go on, unless it is the waiting one alone, and it has
nothing to wake up for. -/
theorem Inv.enabled (inv : s.Inv) (awaited : s.Awaited w) :
    (∃ a s' shown, a.internal = true ∧ s.step a = some (s', shown)) ∨
      (∀ t, s.pc t ≠ .idle → t = w ∧ t ∈ s.waiters) ∧ (w ∈ s.waiters → s.queue = []) := by
  by_cases inside : ∃ t, (s.pc t).holds = true
  · obtain ⟨t, holds⟩ := inside
    exact .inl (inv.inside holds)
  have free : s.owner = none := by
    refine Option.eq_none_iff_forall_ne_some.mpr fun t mine => inside ⟨t, (inv.owner t).mp mine⟩
  by_cases ready : ∃ t call, s.pc t = .locking call
  · obtain ⟨t, call, locking⟩ := ready
    exact .inl ⟨.lock t, _, [], rfl, by rw [step, locking, free]⟩
  refine .inr ⟨fun t busy => ?_, fun member => ?_⟩
  · have member : t ∈ s.waiters := by
      rw [inv.waiters]
      cases pc : s.pc t with
      | idle => exact absurd pc busy
      | waiting => rfl
      | locking call => exact absurd ⟨t, call, pc⟩ ready
      | locked | pushed | reading | popping | unlocking => exact absurd ⟨t, by rw [pc, Pc.holds]⟩ inside
    exact ⟨awaited.asleep t member, member⟩
  · by_contra full
    obtain ⟨u, pushed⟩ := awaited.notified full member
    exact inside ⟨u, by rw [pushed, Pc.holds]⟩

section Rank

variable [Fintype θ]

/-- What is left of all the calls. -/
def rank (s : State θ α) : Nat := ∑ t, (s.pc t).rank

/-- A thread that goes elsewhere changes its own share only. -/
theorem rank_paid {pc : Pc α} {cost gain : Nat} (t : θ)
    (moved : s'.pc = Function.update s.pc t pc) (paid : pc.rank + cost ≤ (s.pc t).rank + gain) :
    s'.rank + cost ≤ s.rank + gain := by
  have others : ∀ u ∈ Finset.univ.erase t, (s'.pc u).rank = (s.pc u).rank := fun u member => by
    rw [moved, Function.update_of_ne (Finset.ne_of_mem_erase member)]
  have here : s'.pc t = pc := by rw [moved, Function.update_self]
  rw [rank, rank, ← Finset.add_sum_erase _ _ (Finset.mem_univ t), Finset.sum_congr rfl others, here,
    ← Finset.add_sum_erase _ (fun u => (s.pc u).rank) (Finset.mem_univ t)]
  omega

theorem Inv.rank_rouse (inv : s.Inv) (member : w ∈ s.waiters) : (s.rouse w).rank ≤ s.rank + 5 := by
  obtain ⟨call, waiting⟩ := inv.asleep member
  refine (Nat.add_zero _).symm.le.trans (rank_paid w rfl ?_)
  rw [waiting, Pc.awake, Pc.rank, Pc.rank]
  omega

/-- What the steps of a call cost is paid for when it starts. -/
theorem Inv.rank_step (inv : s.Inv) (taken : s.step a = some (s', shown)) :
    s'.rank + a.internal.toNat ≤ s.rank + a.gain := by
  cases a with
  | call t call =>
      obtain ⟨idle, rfl, rfl⟩ := step_call_eq taken
      have work : call.work ≤ 4 := by cases call <;> simp only [Call.work] <;> omega
      refine rank_paid t rfl ?_
      simp only [idle, Pc.rank, Act.internal, Act.gain, Bool.toNat_false]
      omega
  | lock t =>
      obtain ⟨call, locking, free, rfl, rfl⟩ := step_lock_eq taken
      refine rank_paid t rfl ?_
      simp only [locking, Pc.rank, Act.internal, Act.gain, Bool.toNat_true]
      omega
  | run t =>
      obtain ⟨ran, rfl⟩ := step_run_eq taken
      cases inv.ran ran with
      | slept call locked waits empty =>
          refine rank_paid t rfl ?_
          simp only [locked, Pc.rank, Act.internal, Act.gain, Bool.toNat_true]
          omega
      | silent pc same keeps fits less => exact rank_paid t rfl less
      | effect call res pc queue pending served done keeps fits less full => exact rank_paid t rfl less
  | notify t w =>
      obtain ⟨pushed, rfl, ⟨none, rfl⟩ | ⟨member, rfl⟩⟩ := step_notify_eq taken
      · refine rank_paid t rfl ?_
        simp only [pushed, Pc.rank, Act.internal, Act.gain, Bool.toNat_true]
        omega
      · have pushed' := inv.pushed_rouse pushed member
        have woken := inv.rank_rouse member
        have paid : ((s.rouse w).goto t (.unlocking .done)).rank + 6 ≤ (s.rouse w).rank + 0 := by
          refine rank_paid t rfl ?_
          rw [pushed', Pc.rank, Pc.rank]
        simp only [Act.internal, Act.gain, Bool.toNat_true]
        omega
  | wake w =>
      obtain ⟨member, rfl, rfl⟩ := step_wake_eq taken
      exact inv.rank_rouse member
  | unlock t =>
      obtain ⟨res, unlocking, rfl, rfl⟩ := step_unlock_eq taken
      refine rank_paid t rfl ?_
      simp only [unlocking, Pc.rank, Act.internal, Act.gain, Bool.toNat_true]
      omega

/-- **No wakeup is lost and no call spins**: where one thread waits, as a worker does on its own queue,
the steps of a run that are not calls or wakeups are bounded by those; and whenever a call is in
progress some thread can take one, or the waiting thread sleeps alone on an empty queue. -/
theorem queue_progress {w : θ} {acts : List (Act θ α)} {s : State θ α}
    {out : List (Shown θ α)}
    (only : ∀ t call, Act.call t call ∈ acts → call.waits = true → t = w)
    (ran : Run.run step new acts = some (s, out)) :
    acts.countP Act.internal ≤ (acts.map Act.gain).sum ∧
      ((∃ a s' shown, a.internal = true ∧ s.step a = some (s', shown)) ∨
        (∀ t, s.pc t ≠ .idle → t = w ∧ t ∈ s.waiters) ∧ (w ∈ s.waiters → s.queue = [])) := by
  have along : Run.Along step (fun _ a => ∀ t call, a = .call t call → call.waits = true → t = w) new acts :=
    .of_forall fun a member t call same => only t call (same ▸ member)
  have kept : ∀ s a s' shown, (s : State θ α).Inv ∧ s.Awaited w →
      (∀ t call, a = .call t call → call.waits = true → t = w) → s.step a = some (s', shown) →
      s'.Inv ∧ s'.Awaited w := fun s a s' shown inv only taken =>
    ⟨(step_refines inv.1 taken).1, inv.2.step inv.1 only taken⟩
  obtain ⟨inv, awaited⟩ := Run.invariant kept ⟨Inv.new, Awaited.new w⟩ along ran
  have paid : s.rank + acts.countP Act.internal ≤ (new : State θ α).rank + (acts.map Act.gain).sum :=
    Run.potential (fun s a s' shown inv only taken => ⟨kept s a s' shown inv only taken, inv.1.rank_step taken⟩)
    ⟨Inv.new, Awaited.new w⟩ along ran
  have start : (new : State θ α).rank = 0 := Finset.sum_eq_zero fun t _ => rfl
  refine ⟨?_, inv.enabled awaited⟩
  omega

theorem queue_progress_example : ∃ s : State Bool Nat, handover.countP Act.internal = 11 ∧
    handover.countP Act.internal ≤ (handover.map Act.gain).sum ∧
      ((∃ a s' shown, a.internal = true ∧ s.step a = some (s', shown)) ∨
        (∀ t, s.pc t ≠ .idle → t = true ∧ t ∈ s.waiters) ∧ (true ∈ s.waiters → s.queue = [])) := by
  obtain ⟨s, out, ran⟩ : ∃ (s : State Bool Nat) (out : List (Shown Bool Nat)),
      Run.run step new handover = some (s, out) := ⟨_, _, rfl⟩
  have only : ∀ t call, Act.call t call ∈ handover → call.waits = true → t = true := by
    intro t call member waits
    simp only [handover, List.mem_cons, Act.call.injEq, reduceCtorEq, List.not_mem_nil, or_false, false_or] at member
    rcases member with ⟨rfl, rfl⟩ | ⟨rfl, rfl⟩
    · rfl
    · cases waits
  exact ⟨s, rfl, queue_progress only ran⟩

end Rank

end State

end ThreadsafeQueue

end KTableFS.Kvengine
