-- SUMMARY: Standing for the same variable is an equivalence, and setting one leaves the others.
import Mathlib.Data.Rat.Cast.CharZero
import Mathlib.Tactic.Ring
import Yolol.Environment

/-!
# The same variable

A name that is no text stands for the same variable as any name that is equal to it, though
the two may be written differently: one, one as a double, and true. On the names that can be
kept at all this is an equivalence, so a variable is kept under one of its names, and
setting it leaves every other variable alone.
-/

namespace Yolol

/-! ## Equal values -/

/-- Finite doubles agree if they denote the same rational number. -/
theorem Double.agrees_finite (m e n f : Int) :
    (Double.finite m e).agrees (.finite n f) = true ↔ (m : ℚ) * 2 ^ e = n * 2 ^ f := by
  -- Both sides are multiples of the smaller power of two.
  have hshift (k x : Int) (hk : min e f ≤ x) :
      (k : ℚ) * 2 ^ x = ((k * Nat.pow 2 (x - min e f).toNat : Int) : ℚ) * 2 ^ min e f := by
    have hsum : x = ((x - min e f).toNat : Int) + min e f := by omega
    conv_lhs => rw [hsum, zpow_add₀ (by norm_num : (2 : ℚ) ≠ 0), zpow_natCast]
    push_cast [Nat.pow_eq]
    ring
  have hpos : (2 : ℚ) ^ min e f ≠ 0 := zpow_ne_zero _ (by norm_num)
  rw [hshift m e (min_le_left e f), hshift n f (min_le_right e f), mul_left_inj' hpos,
    Int.cast_inj]
  simp [Double.agrees]

theorem Double.agrees_self (x : Double) : x.agrees x = true := by
  cases x with
  | notANumber => rfl
  | infinite s => simp [Double.agrees]
  | finite m e => exact (Double.agrees_finite m e m e).mpr rfl

theorem Double.agrees_of_agrees {x y z : Double} (hx : x.agrees z = true)
    (hy : y.agrees z = true) : x.agrees y = true := by
  cases z with
  | notANumber => cases x <;> cases y <;> simp_all [Double.agrees]
  | infinite s => cases x <;> cases y <;> simp_all [Double.agrees]
  | finite k g =>
    cases x with
    | notANumber | infinite s => cases hx
    | finite m e =>
      cases y with
      | notANumber | infinite s => cases hy
      | finite n f =>
        rw [Double.agrees_finite] at hx hy ⊢
        exact hx.trans hy.symm

namespace Json

theorem agrees_of_number {a b : Json} {x : Double} (ha : a.number? = some x) :
    a.agrees b = a.sameNumber b := by
  cases a with
  | bool _ | int _ | float _ => cases b <;> rfl
  | null | str _ | arr _ | obj _ => cases ha

theorem sameNumber_iff (a b : Json) :
    a.sameNumber b = true ↔
      ∃ x y, a.number? = some x ∧ b.number? = some y ∧ x.agrees y = true := by
  unfold sameNumber
  split
  · next x y hx hy => simp [hx, hy]
  · next hnone =>
    simp only [Bool.false_eq_true, false_iff]
    rintro ⟨x, y, hx, hy, -⟩
    exact hnone x y hx hy

/-- A value that holds no others is null, a text, or counts as a number. -/
theorem scalar_cases {a : Json} (h : Node.collectionName? a = none) :
    a = .null ∨ (∃ s, a = .str s) ∨ ∃ x, a.number? = some x := by
  cases a with
  | null => exact .inl rfl
  | str s => exact .inr (.inl ⟨s, rfl⟩)
  | bool b | int n | float bits => exact .inr (.inr ⟨_, rfl⟩)
  | arr items | obj fields => cases h

theorem agrees_null {a : Json} (h : a.agrees .null = true) : a = .null := by
  cases a <;> simp_all [agrees, sameNumber, number?]

theorem agrees_str {a : Json} {s : String} (h : a.agrees (.str s) = true) : a = .str s := by
  cases a <;> simp_all [agrees, sameNumber, number?]

theorem agrees_number {a b : Json} {y : Double} (hb : b.number? = some y)
    (h : a.agrees b = true) : ∃ x, a.number? = some x ∧ x.agrees y = true := by
  have hsame : a.sameNumber b = true := by
    cases b with
    | bool _ | int _ | float _ => cases a <;> exact h
    | null | str _ | arr _ | obj _ => cases hb
  obtain ⟨x, z, hx, hz, hagrees⟩ := (sameNumber_iff a b).mp hsame
  cases hb.symm.trans hz
  exact ⟨x, hx, hagrees⟩

theorem agrees_self {a : Json} (h : Node.collectionName? a = none) : a.agrees a = true := by
  obtain rfl | ⟨s, rfl⟩ | ⟨x, hx⟩ := scalar_cases h
  · rfl
  · simp [agrees]
  · rw [agrees_of_number hx]
    exact (sameNumber_iff a a).mpr ⟨x, x, hx, hx, x.agrees_self⟩

theorem scalar_of_agrees {a b : Json} (ha : Node.collectionName? a = none)
    (h : a.agrees b = true) : Node.collectionName? b = none := by
  cases b with
  | null | bool _ | int _ | float _ | str _ => rfl
  | arr items | obj fields =>
    obtain rfl | ⟨s, rfl⟩ | ⟨x, hx⟩ := scalar_cases ha
    · cases h
    · cases h
    · rw [agrees_of_number hx] at h
      obtain ⟨_, _, -, hnumber, -⟩ := (sameNumber_iff ..).mp h
      cases hnumber

theorem agrees_of_agrees {a b c : Json} (hc : Node.collectionName? c = none)
    (ha : a.agrees c = true) (hb : b.agrees c = true) : a.agrees b = true := by
  obtain rfl | ⟨s, rfl⟩ | ⟨z, hz⟩ := scalar_cases hc
  · rw [agrees_null ha, agrees_null hb]
    rfl
  · rw [agrees_str ha, agrees_str hb]
    simp [agrees]
  · obtain ⟨x, hx, hxz⟩ := agrees_number hz ha
    obtain ⟨y, hy, hyz⟩ := agrees_number hz hb
    rw [agrees_of_number hx]
    exact (sameNumber_iff a b).mpr ⟨x, y, hx, hy, Double.agrees_of_agrees hxz hyz⟩

end Json

/-! ## Names -/

namespace Node

/-- The node names a variable, with a text or with some other value. -/
def isName : Node → Bool
  | .identifier _ | .misfit (.name _) _ => true
  | _ => false

variable {a b c : Node}

/-- What stands for a name that is no text is such a name itself. -/
theorem agrees_misfit {role : Role} {content : Json} (h : a.agrees (.misfit role content) = true) :
    ∃ other, a = .misfit role other ∧ other.agrees content = true := by
  cases a <;> simp_all [agrees]

theorem agrees_self (hname : a.isName = true) (hscalar : a.collection? = none) :
    a.agrees a = true := by
  fun_cases isName a with
  | case1 id => simp [agrees]
  | case2 shared content => simpa [agrees] using Json.agrees_self hscalar
  | case3 => simp_all [isName]

/-- Two nodes that stand for the same variable as a third do so for each other. -/
theorem agrees_of_agrees (hname : c.isName = true) (hscalar : c.collection? = none)
    (ha : a.agrees c = true) (hb : b.agrees c = true) : a.agrees b = true := by
  fun_cases isName c with
  | case1 id =>
    rw [(agrees_identifier_right id a).mp ha, (agrees_identifier_right id b).mp hb]
    simp [agrees]
  | case2 shared content =>
    obtain ⟨x, rfl, hx⟩ := agrees_misfit ha
    obtain ⟨y, rfl, hy⟩ := agrees_misfit hb
    simpa [agrees] using Json.agrees_of_agrees hscalar hx hy
  | case3 => simp_all [isName]

theorem isName_of_agrees (hname : a.isName = true) (hscalar : a.collection? = none)
    (h : a.agrees b = true) : b.isName = true ∧ b.collection? = none := by
  fun_cases isName a with
  | case1 id =>
    obtain rfl := (agrees_identifier id b).mp h
    exact ⟨rfl, rfl⟩
  | case2 shared content =>
    cases b with
    | misfit role other =>
      obtain ⟨rfl, hcontent⟩ : .name shared = role ∧ content.agrees other = true := by
        simpa [agrees] using h
      exact ⟨rfl, Json.scalar_of_agrees hscalar hcontent⟩
    | _ => simp [agrees] at h
  | case3 => simp_all [isName]

theorem agrees_symm (hname : b.isName = true) (hscalar : b.collection? = none)
    (h : a.agrees b = true) : b.agrees a = true :=
  agrees_of_agrees hname hscalar (agrees_self hname hscalar) h

end Node

/-! ## Setting a variable -/

theorem Store.isSome_get?_iff {κ ν : Type} [DecidableEq κ] (s : Store κ ν) (key : κ) :
    (s.get? key).isSome = true ↔ key ∈ s.keys := by
  simp [get?, keys]

namespace Environment

variable (env : Environment) {target w : Node}

/-- No variable is kept twice. -/
def Distinct (env : Environment) : Prop :=
  env.store.keys.Pairwise fun a b => a.agrees b = false

theorem keys_set (w : Node) (value : Value) :
    (env.set w value).store.keys =
      env.store.keys ++ if env.keyOf w ∈ env.store.keys then [] else [env.keyOf w] :=
  Store.keys_set env.store (env.keyOf w) value

/-- A variable is kept under a node that stands for it, or it is new. -/
theorem keyOf_cases (target : Node) :
    (env.keyOf target ∈ env.store.keys ∧ target.agrees (env.keyOf target) = true) ∨
      env.keyOf target = target ∧ ∀ key ∈ env.store.keys, target.agrees key = false := by
  unfold keyOf
  cases hfound : env.store.keys.find? target.agrees with
  | some key => exact .inl ⟨List.mem_of_find?_eq_some hfound, List.find?_some hfound⟩
  | none => exact .inr ⟨rfl, by simpa using List.find?_eq_none.mp hfound⟩

/-- A name is set under a key that it has already, or as a new key at the end. -/
theorem keys_set_name (hname : w.isName = true) (hscalar : w.collection? = none) (value : Value) :
    (env.set w value).store.keys = env.store.keys ∨
      (env.set w value).store.keys = env.store.keys ++ [w] ∧
        ∀ key ∈ env.store.keys, w.agrees key = false := by
  rw [keys_set]
  rcases env.keyOf_cases w with ⟨hmem, -⟩ | ⟨hself, hnew⟩
  · rw [if_pos hmem, List.append_nil]
    exact .inl rfl
  · have habsent : w ∉ env.store.keys := by
      intro hmem
      have hself := Node.agrees_self hname hscalar
      rw [hnew w hmem] at hself
      cases hself
    rw [hself, if_neg habsent]
    exact .inr ⟨rfl, hnew⟩

theorem agrees_keyOf (hname : w.isName = true) (hscalar : w.collection? = none) :
    w.agrees (env.keyOf w) = true := by
  rcases env.keyOf_cases w with ⟨-, hfound⟩ | ⟨hself, -⟩
  · exact hfound
  · rw [hself]
    exact Node.agrees_self hname hscalar

/-- Setting a name leaves the variables alone for which it does not stand. -/
theorem get?_set_of_not_agrees (hname : w.isName = true) (hscalar : w.collection? = none)
    (h : target.agrees w = false) (value : Value) :
    (env.set w value).get? target = env.get? target := by
  have hkey : (env.set w value).keyOf target = env.keyOf target := by
    unfold keyOf
    rcases env.keys_set_name hname hscalar value with hkeys | ⟨hkeys, -⟩
    · rw [hkeys]
    · rw [hkeys, List.find?_append]
      simp [h]
  have hother : env.keyOf target ≠ env.keyOf w := by
    intro heq
    have hw := env.agrees_keyOf hname hscalar
    obtain ⟨hkeyName, hkeyScalar⟩ := Node.isName_of_agrees hname hscalar hw
    have ht : target.agrees (env.keyOf w) = true := by
      rcases env.keyOf_cases target with ⟨-, ht⟩ | ⟨ht, -⟩
      · rwa [← heq]
      · rw [← heq, ht] at hkeyName hkeyScalar ⊢
        exact Node.agrees_self hkeyName hkeyScalar
    rw [Node.agrees_of_agrees hkeyName hkeyScalar ht hw] at h
    cases h
  rw [get?, hkey, set, Store.get?_set, if_neg hother, get?]

/-- A variable stays set while keys are only added. -/
theorem isSome_get?_of_prefix {env' : Environment} (h : env.store.keys <+: env'.store.keys)
    (hset : (env.get? target).isSome = true) : (env'.get? target).isSome = true := by
  rw [get?, Store.isSome_get?_iff] at hset ⊢
  rcases env'.keyOf_cases target with ⟨hmem, -⟩ | ⟨hself, hnew⟩
  · exact hmem
  · rw [hself]
    rcases env.keyOf_cases target with ⟨hmem, hagrees⟩ | ⟨hself', -⟩
    · rw [hnew _ (h.subset hmem)] at hagrees
      cases hagrees
    · rw [hself'] at hset
      exact h.subset hset

theorem prefix_keys_set (w : Node) (value : Value) :
    env.store.keys <+: (env.set w value).store.keys := by
  rw [keys_set]
  exact List.prefix_append _ _

theorem Distinct.set {env : Environment} (h : env.Distinct) (hname : w.isName = true)
    (hscalar : w.collection? = none) (value : Value) : (env.set w value).Distinct := by
  rcases env.keys_set_name hname hscalar value with hkeys | ⟨hkeys, hnew⟩
  · rw [Distinct, hkeys]
    exact h
  · rw [Distinct, hkeys]
    refine List.pairwise_append.mpr ⟨h, List.pairwise_singleton _ _, fun a ha b hb => ?_⟩
    obtain rfl := List.mem_singleton.mp hb
    refine Bool.eq_false_iff.mpr fun hagrees => ?_
    have hback := Node.agrees_symm hname hscalar hagrees
    rw [hnew a ha] at hback
    cases hback

end Environment

end Yolol
