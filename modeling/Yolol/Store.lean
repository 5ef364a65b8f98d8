-- SUMMARY: Entries in the order in which their keys were first set.

/-!
# Stores

A store keeps one value a key. A new key goes to the end, and setting a key again
leaves it in its place, so the order tells which key was set first.
-/

namespace Yolol

/-- A finite map that remembers the order of its keys. -/
structure Store (κ ν : Type) where
  entries : List (κ × ν) := []
  distinct : (entries.map (·.1)).Nodup := by simp

namespace Store

variable {κ ν : Type} [DecidableEq κ]

/-- Set a key in a list of entries. -/
def place (key : κ) (value : ν) : List (κ × ν) → List (κ × ν)
  | [] => [(key, value)]
  | (k, v) :: rest => if k = key then (k, value) :: rest else (k, v) :: place key value rest

theorem keys_place (key : κ) (value : ν) (entries : List (κ × ν)) :
    (place key value entries).map (·.1)
      = entries.map (·.1) ++ if key ∈ entries.map (·.1) then [] else [key] := by
  induction entries with
  | nil => simp [place]
  | cons e rest ih =>
    by_cases h : e.1 = key
    · simp [place, h]
    · have h' : key ≠ e.1 := Ne.symm h
      simp only [place, if_neg h, List.map_cons, ih, List.mem_cons, h', false_or,
        List.cons_append]

theorem nodup_place (key : κ) (value : ν) (entries : List (κ × ν))
    (h : (entries.map (·.1)).Nodup) : ((place key value entries).map (·.1)).Nodup := by
  rw [keys_place]
  split
  · simpa using h
  · rename_i absent
    exact List.nodup_append.2 ⟨h, by simp, fun a ha b hb => by grind⟩

/-- The keys, in the order in which they were first set. -/
def keys (s : Store κ ν) : List κ := s.entries.map (·.1)

/-- The value of a key. -/
def get? (s : Store κ ν) (key : κ) : Option ν :=
  (s.entries.find? fun e => e.1 = key).map (·.2)

/-- Set a key to a value. -/
def set (s : Store κ ν) (key : κ) (value : ν) : Store κ ν :=
  ⟨place key value s.entries, nodup_place key value s.entries s.distinct⟩

theorem keys_set (s : Store κ ν) (key : κ) (value : ν) :
    (s.set key value).keys = s.keys ++ if key ∈ s.keys then [] else [key] :=
  keys_place key value s.entries

theorem find?_place (k key : κ) (value : ν) (entries : List (κ × ν)) :
    ((place key value entries).find? fun e => e.1 = k).map (·.2) =
      if k = key then some value else (entries.find? fun e => e.1 = k).map (·.2) := by
  induction entries with
  | nil =>
    by_cases h : k = key
    · simp [place, h]
    · simp [place, h, Ne.symm h]
  | cons e rest ih =>
    rw [place]
    by_cases he : e.1 = key
    · by_cases h : k = key
      · simp [he, h]
      · simp [he, h, Ne.symm h]
    · by_cases hk : e.1 = k
      · have hne : k ≠ key := fun h => he (hk.trans h)
        simp [hk, hne]
      · simp only [if_neg he, List.find?_cons_of_neg, hk, decide_false, Bool.false_eq_true,
          not_false_eq_true, ih]

/-- Setting a key changes its value and no other. -/
theorem get?_set (s : Store κ ν) (k key : κ) (value : ν) :
    (s.set key value).get? k = if k = key then some value else s.get? k :=
  find?_place k key value s.entries

theorem mem_place {e : κ × ν} {key : κ} {value : ν} {entries : List (κ × ν)}
    (h : e ∈ place key value entries) : e ∈ entries ∨ e.2 = value := by
  induction entries with
  | nil =>
    obtain rfl : e = (key, value) := by simpa [place] using h
    exact .inr rfl
  | cons first rest ih =>
    rw [place] at h
    split at h
    · rcases List.mem_cons.mp h with rfl | h
      · exact .inr rfl
      · exact .inl (.tail _ h)
    · rcases List.mem_cons.mp h with rfl | h
      · exact .inl List.mem_cons_self
      · exact (ih h).imp_left (.tail _)

/-- After setting a key, every other value was there before. -/
theorem mem_set {s : Store κ ν} {e : κ × ν} {key : κ} {value : ν}
    (h : e ∈ (s.set key value).entries) : e ∈ s.entries ∨ e.2 = value :=
  mem_place h

theorem mem_of_get? {s : Store κ ν} {key : κ} {value : ν} (h : s.get? key = some value) :
    ∃ k, (k, value) ∈ s.entries := by
  obtain ⟨e, he, rfl⟩ := Option.map_eq_some_iff.mp h
  exact ⟨e.1, List.mem_of_find?_eq_some he⟩

end Store

end Yolol
