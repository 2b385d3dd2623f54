/-
# Kvengine.Store -- the finite map a client sees

`Store.serve` says what each request of the key-value store is for: one step of a
finite map.  `Kvengine.MapRefinement` shows when a worker behaves like it, and the
file system is modelled over it.
-/
import KTableFS.Kvengine.Batch

namespace KTableFS.Kvengine

set_option autoImplicit false

/-- Keys with their values. -/
abbrev Store := Std.TreeMap Slice Slice

namespace Store

/-- A request served by the map; the effects name the only batch, 0. -/
def serve (m : Store) : Request → Store × List Effect
  | .get key =>
      match m[key]? with
      | none => (m, [.respond 0 none enoent])
      | some value => (m, [.respond 0 (some value) 0])
  | .put key value =>
      if m.contains key then (m, [.respond 0 none eexist])
      else (m.insert key value, [.respond 0 none 0])
  | .update key value =>
      if m.contains key then (m.insert key value, [.respond 0 none 0])
      else (m, [.respond 0 none enoent])
  | .delete key =>
      if m.contains key then (m.erase key, [.respond 0 none 0])
      else (m, [.respond 0 none enoent])
  | .scan minKey maxKey _ _ =>
      let pairs := m.toList.filter fun pair => !pair.1.lt minKey && pair.1.lt maxKey
      (m, pairs.map (fun pair => .scanned 0 pair.1 pair.2 true) ++ [.respond 0 none 0])

/-- `DB::Submit` of a batch of one request: the respond its callback gets. -/
def submit (m : Store) (req : Request) : Store × Option (Option Slice × Int) :=
  ((m.serve req).1, (m.serve req).2.findSome? fun
    | .respond _ data res => some (data, res)
    | _ => none)

theorem getElem?_insert (m : Store) (key value other : Slice) :
    (m.insert key value)[other]? = if other = key then some value else m[other]? := by
  rw [Std.TreeMap.getElem?_insert]
  by_cases same : other = key
  · simp [same]
  · simp [same, Ne.symm same]

theorem getElem?_erase (m : Store) (key other : Slice) :
    (m.erase key)[other]? = if other = key then none else m[other]? := by
  rw [Std.TreeMap.getElem?_erase]
  by_cases same : other = key
  · simp [same]
  · simp [same, Ne.symm same]

theorem contains_iff (m : Store) (key : Slice) :
    m.contains key = true ↔ ∃ value, m[key]? = some value := by
  rw [Std.TreeMap.contains_eq_isSome_getElem?, Option.isSome_iff_exists]

theorem submit_get (m : Store) (key : Slice) :
    m.submit (.get key) = (m, some (m[key]?, if m[key]?.isSome then 0 else enoent)) := by
  cases found : m[key]? with
  | none => simp [submit, serve, found]
  | some value => simp [submit, serve, found]

theorem submit_put (m : Store) (key value : Slice) :
    m.submit (.put key value) =
      if m.contains key then (m, some (none, eexist)) else (m.insert key value, some (none, 0)) := by
  simp only [submit, serve]
  split <;> rfl

theorem submit_update (m : Store) (key value : Slice) :
    m.submit (.update key value) =
      if m.contains key then (m.insert key value, some (none, 0)) else (m, some (none, enoent)) := by
  simp only [submit, serve]
  split <;> rfl

end Store

end KTableFS.Kvengine
