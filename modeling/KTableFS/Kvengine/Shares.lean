/-
# Kvengine.Shares -- the workers together hold one map

`DB` spreads its keys over the workers: `split_func_` sends every request for a key to
the same one.  The map the clients see is cut accordingly (`Store.share`), and
`Workers.Holds` says that each worker stores its share.

`Workers.serveOne` is one request, alone, on the worker it is routed to.
`Workers.Holds.step` lifts the refinement of a single worker: a request changes the
one map as `Store.serve` does, and a scan that is sent to worker `k` delivers the
pairs of the share of `k`.  The shares of a range put together are the range
(`flatMap_share_perm`), in another order.
-/
import KTableFS.Kvengine.MapRefinement
import KTableFS.Kvengine.Scan

namespace KTableFS.Kvengine

open KTableFS.Theory

set_option autoImplicit false

/-! ## The shares of a map -/

/-- The pairs passed to scan callbacks. -/
def pairsIn (effects : List Effect) : List (Slice × Slice) :=
  effects.filterMap fun
    | .scanned _ key value _ => some (key, value)
    | _ => none

theorem pairsIn_append (first second : List Effect) :
    pairsIn (first ++ second) = pairsIn first ++ pairsIn second :=
  List.filterMap_append

@[simp] theorem pairsIn_scanned (id : Nat) (pairs : List (Slice × Slice)) :
    pairsIn (pairs.map fun pair => .scanned id pair.1 pair.2 true) = pairs := by
  simp [pairsIn, List.filterMap_map]

@[simp] theorem pairsIn_finishRequest (batch : Batch) (data : Option Slice) (res : Int) :
    pairsIn [batch.finishRequest data res] = [] := by
  unfold Batch.finishRequest
  split <;> rfl

section Share

variable (split : Slice → Nat → Nat) (n : Nat)

/-- The part of a map that belongs to worker `k`. -/
def Store.share (m : Store) (k : Nat) : Store := m.filter fun key _ => split key n == k

variable {split n}

theorem Store.getElem?_share (m : Store) (k : Nat) (key : Slice) :
    (m.share split n k)[key]? = if split key n = k then m[key]? else none := by
  rw [Store.share, Std.TreeMap.getElem?_filter']
  by_cases own : split key n = k
  · cases m[key]? <;> simp [own]
  · simp [own]

theorem Store.toList_share (m : Store) (k : Nat) :
    (m.share split n k).toList = m.toList.filter fun pair => split pair.1 n == k :=
  Std.TreeMap.toList_filter

/-- The pairs of a scan over a share. -/
theorem Store.pairsIn_serve_scan (m : Store) (minKey maxKey : Slice) (callback : ScanCallback)
    (tag : Nat) :
    pairsIn (m.serve (.scan minKey maxKey callback tag)).2 =
      m.toList.filter fun pair => !pair.1.lt minKey && pair.1.lt maxKey := by
  simp only [Store.serve, pairsIn_append, pairsIn_scanned]
  exact List.append_nil _

theorem Store.pairsIn_serve_point (m : Store) {req : Request} (point : req.isPoint = true) :
    pairsIn (m.serve req).2 = [] := by
  cases req with
  | scan minKey maxKey callback tag => cases point
  | get key =>
      simp only [Store.serve]
      split <;> rfl
  | put key value =>
      simp only [Store.serve]
      split <;> rfl
  | update key value =>
      simp only [Store.serve]
      split <;> rfl
  | delete key =>
      simp only [Store.serve]
      split <;> rfl

theorem Store.contains_share (m : Store) {k : Nat} {key : Slice} (own : split key n = k) :
    (m.share split n k).contains key = m.contains key := by
  rw [Std.TreeMap.contains_eq_isSome_getElem?, Std.TreeMap.contains_eq_isSome_getElem?,
    Store.getElem?_share, if_pos own]

/-- A share answers the requests that are routed to it as the whole map does. -/
theorem Store.serve_share_effects (m : Store) {req : Request} (point : req.isPoint = true) :
    ((m.share split n (route split n req)).serve req).2 = (m.serve req).2 := by
  cases req with
  | scan minKey maxKey callback tag => cases point
  | get key =>
      simp only [Store.serve, route, Store.getElem?_share, if_true]
      split <;> rfl
  | put key value =>
      simp only [Store.serve, route, m.contains_share rfl]
      split <;> rfl
  | update key value =>
      simp only [Store.serve, route, m.contains_share rfl]
      split <;> rfl
  | delete key =>
      simp only [Store.serve, route, m.contains_share rfl]
      split <;> rfl

/-- It changes as its part of the whole map does. -/
theorem Store.serve_share_own (m : Store) (req : Request) (key : Slice) :
    ((m.share split n (route split n req)).serve req).1[key]? =
      ((m.serve req).1.share split n (route split n req))[key]? := by
  cases req with
  | scan minKey maxKey callback tag => rfl
  | get key' =>
      simp only [Store.serve, route, Store.getElem?_share, if_true]
      split <;> simp [Store.getElem?_share]
  | put key' value =>
      simp only [Store.serve, route, m.contains_share rfl]
      split
      · rfl
      · simp only [Store.getElem?_share, Store.getElem?_insert]
        grind
  | update key' value =>
      simp only [Store.serve, route, m.contains_share rfl]
      split
      · simp only [Store.getElem?_share, Store.getElem?_insert]
        grind
      · rfl
  | delete key' =>
      simp only [Store.serve, route, m.contains_share rfl]
      split
      · simp only [Store.getElem?_share, Store.getElem?_erase]
        grind
      · rfl

/-- The other shares stay as they are. -/
theorem Store.serve_share_other (m : Store) {req : Request} {k : Nat} (other : k ≠ route split n req)
    (key : Slice) : ((m.serve req).1.share split n k)[key]? = (m.share split n k)[key]? := by
  cases req with
  | scan minKey maxKey callback tag => rfl
  | get key' =>
      simp only [Store.serve]
      split <;> rfl
  | put key' value =>
      simp only [Store.serve, route] at other ⊢
      split
      · rfl
      · simp only [Store.getElem?_share, Store.getElem?_insert]
        grind
  | update key' value =>
      simp only [Store.serve, route] at other ⊢
      split
      · simp only [Store.getElem?_share, Store.getElem?_insert]
        grind
      · rfl
  | delete key' =>
      simp only [Store.serve, route] at other ⊢
      split
      · simp only [Store.getElem?_share, Store.getElem?_erase]
        grind
      · rfl

/-- The shares of a range, one after the other, are the range. -/
theorem Store.flatMap_share_perm (m : Store) (routed : ∀ key, split key n < n) (minKey maxKey : Slice)
    (callback : ScanCallback) :
    ((List.range n).flatMap fun k =>
        pairsIn ((m.share split n k).serve (.scan minKey maxKey callback k)).2).Perm
      (pairsIn (m.serve (.scan minKey maxKey callback 0)).2) := by
  simp only [Store.pairsIn_serve_scan, Store.toList_share, List.filter_filter, Bool.and_comm]
  simp only [← List.filter_filter]
  exact flatMap_filter_perm fun pair _ => routed pair.1

end Share

/-! ## The workers together -/

/-- A worker that stores a map stores every map with the same entries. -/
theorem Ready.congr {w : Worker} {m m' : Store} (ready : Ready w m)
    (same : ∀ key : Slice, m[key]? = m'[key]?) : Ready w m' := by
  have equal : (fun key : Slice => m[key]?) = fun key => m'[key]? := funext same
  exact ⟨equal ▸ ready.sound, equal ▸ ready.cached, ready.between, ready.quiet, ready.large⟩

/-- The workers of a database, between two requests. -/
abbrev Workers (n : Nat) := Fin n → Worker

namespace Workers

variable {n : Nat} (split : Slice → Nat → Nat)

/-- One request, alone, on the worker it is routed to. -/
def serveOne (ws : Workers n) (req : Request) : Option (Workers n × List Effect) :=
  if inRange : route split n req < n then
    ((ws ⟨route split n req, inRange⟩).serveOne req).map fun out =>
      (Function.update ws ⟨route split n req, inRange⟩ out.1, out.2)
  else none

/-- `Worker.MapSafe` of the worker a request is routed to. -/
def MapSafe (ws : Workers n) (req : Request) : Prop :=
  ∀ inRange : route split n req < n, (ws ⟨route split n req, inRange⟩).MapSafe req

instance (ws : Workers n) (req : Request) : Decidable (ws.MapSafe split req) :=
  inferInstanceAs (Decidable (∀ _ : route split n req < n, _))

/-- Each worker stores its share of the map. -/
def Holds (ws : Workers n) (m : Store) : Prop := ∀ k : Fin n, Ready (ws k) (m.share split n k)

/-- The map serves a request; a scan is answered by the worker it is sent to. -/
def storeStep (n : Nat) (m : Store) (req : Request) : Store × List Effect :=
  ((m.serve req).1, ((m.share split n (route split n req)).serve req).2)

variable {split}

/-- **One request on the workers is one request on the map.** -/
theorem Holds.step {ws : Workers n} {m : Store} {req : Request} (holds : ws.Holds split m)
    (inRange : route split n req < n) (unstopped : req.Unstopped) (safe : ws.MapSafe split req) :
    ∃ ws', ws.serveOne split req = some (ws', (storeStep split n m req).2) ∧
      Holds split ws' (storeStep split n m req).1 := by
  obtain ⟨w, served, ready⟩ := (holds ⟨route split n req, inRange⟩).step unstopped (safe inRange)
  refine ⟨Function.update ws ⟨route split n req, inRange⟩ w, ?_, ?_⟩
  · rw [serveOne, dif_pos inRange, served]
    rfl
  · intro k
    by_cases same : k = ⟨route split n req, inRange⟩
    · subst same
      rw [Function.update_self]
      exact ready.congr fun key => m.serve_share_own req key
    · rw [Function.update_of_ne same]
      have other : k.val ≠ route split n req := fun equal => same (Fin.ext equal)
      exact (holds k).congr fun key => (m.serve_share_other other key).symm

/-- New workers hold the empty map. -/
theorem Holds.new (workDir : String) {pages : Nat} (two : 2 ≤ pages) (junk : Memory) :
    Holds split (fun k : Fin n => Worker.new k workDir pages junk) ∅ := by
  intro k
  refine (Ready.new k workDir two junk).congr fun key => ?_
  rw [Store.getElem?_share]
  split <;> simp

end Workers

end KTableFS.Kvengine
