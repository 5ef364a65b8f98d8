-- SUMMARY: What a line or a program leaves as it was, and how the store grows.
import Yolol.Proofs.Invariant
import Yolol.Proofs.Observation

/-!
# Frames

A line sets the variables that it assigns or steps, and moves the counter if there is a jump
in it. All else is left as it was, whether the line runs to its end or fails: the name, the
error, and every other variable. Variables are never taken away and keep their order, and a
new one goes to the end. The same holds of the store along the run of a program.
-/

namespace Yolol

namespace Node

/-! ## Nodes of a tree -/

mutual
/-- Every node of the tree, the tree itself first. -/
def parts : Node → List Node
  | .missing => [.missing]
  | .misfit role content => [.misfit role content]
  | .number n => [.number n]
  | .text s => [.text s]
  | .identifier id => [.identifier id]
  | .comment s => [.comment s]
  | .group a => .group a :: a.parts
  | .value a => .value a :: a.parts
  | .unary op a => .unary op a :: a.parts
  | .goto a => .goto a :: a.parts
  | .evaluation a => .evaluation a :: a.parts
  | .binary op a b => .binary op a b :: (a.parts ++ b.parts)
  | .assignment a op b => .assignment a op b :: (a.parts ++ b.parts)
  | .ifThen c body => .ifThen c body :: (c.parts ++ partsAll body)
  | .ifElse c body otherwise =>
    .ifElse c body otherwise :: (c.parts ++ (partsAll body ++ partsAll otherwise))
  | .line as => .line as :: partsAll as
  | .program as => .program as :: partsAll as

/-- Every node of the trees. -/
def partsAll : List Node → List Node
  | [] => []
  | a :: as => a.parts ++ partsAll as
end

mutual
theorem every_iff_parts (p : Node → Bool) (n : Node) :
    n.every p = true ↔ ∀ m ∈ n.parts, p m = true := by
  match n with
  | .missing | .misfit .. | .number _ | .text _ | .identifier _ | .comment _ =>
    simp [every, parts]
  | .group a | .value a | .unary _ a | .goto a | .evaluation a =>
    simp [every, parts, every_iff_parts p a]
  | .binary _ a b | .assignment a _ b =>
    simp [every, parts, every_iff_parts p a, every_iff_parts p b, or_imp, forall_and]
  | .ifThen c body =>
    simp [every, parts, every_iff_parts p c, everyAll_iff_parts p body, or_imp, forall_and]
  | .ifElse c body otherwise =>
    simp [every, parts, every_iff_parts p c, everyAll_iff_parts p body,
      everyAll_iff_parts p otherwise, or_imp, forall_and]
  | .line as | .program as => simp [every, parts, everyAll_iff_parts p as]

theorem everyAll_iff_parts (p : Node → Bool) (as : List Node) :
    everyAll p as = true ↔ ∀ m ∈ partsAll as, p m = true := by
  match as with
  | [] => simp [everyAll, partsAll]
  | a :: as =>
    simp [everyAll, partsAll, every_iff_parts p a, everyAll_iff_parts p as, or_imp, forall_and]
end

theorem every_mem_parts (tree : Node) : tree.every (fun m => decide (m ∈ tree.parts)) = true :=
  (every_iff_parts _ tree).mpr fun m hm => by simpa using hm

/-! ## Variables that a tree writes -/

/-- The variable that the node assigns or steps. -/
def written? : Node → Option Node
  | .assignment target _ _ => some target
  | .unary op (.value a) => if op.isStep then some a else none
  | _ => none

/-- The variables that nodes of the tree assign or step. -/
def written (tree : Node) : List Node := tree.parts.filterMap written?

/-- The node assigns to a name, if it assigns at all. -/
def assignsName : Node → Bool
  | .assignment target _ _ => target.isName
  | _ => true

def isJumpless : Node → Bool
  | .goto _ => false
  | _ => true

theorem mem_written_of_assignment {tree target e : Node} {op : Operator}
    (h : .assignment target op e ∈ tree.parts) : target ∈ tree.written :=
  List.mem_filterMap.mpr ⟨_, h, rfl⟩

theorem mem_written_of_step {tree a : Node} {op : Operator}
    (h : .unary op (.value a) ∈ tree.parts) (hstep : op.isStep = true) : a ∈ tree.written :=
  List.mem_filterMap.mpr ⟨_, h, by simp [written?, hstep]⟩

end Node

namespace Run

open Node

/-! ## Changes within a frame -/

/-- `Confined tree env env'`: from `env` to `env'`, apart from the counter and the error, only
    variables that the tree writes have changed. -/
structure Confined (tree : Node) (env env' : Environment) : Prop where
  name : env'.name = env.name
  others : ∀ target : Node, (∀ w ∈ tree.written, target.agrees w = false) →
    env'.get? target = env.get? target
  /-- No variable is taken away. -/
  kept : ∀ target : Node, (env.get? target).isSome = true → (env'.get? target).isSome = true
  /-- Variables keep their order, and new ones go to the end. -/
  order : env.store.keys <+: env'.store.keys
  once : env.Distinct → env'.Distinct

variable {tree : Node} {env env' : Environment}

theorem Confined.refl (tree : Node) (env : Environment) : Confined tree env env :=
  ⟨rfl, fun _ _ => rfl, fun _ h => h, List.prefix_refl _, id⟩

theorem Confined.set (h : Confined tree env env') {w : Node} (hw : w ∈ tree.written)
    (hname : w.isName = true) (hscalar : w.collection? = none) (value : Value) :
    Confined tree env (env'.set w value) where
  name := h.name
  others target ht :=
    (env'.get?_set_of_not_agrees hname hscalar (ht w hw) value).trans (h.others target ht)
  kept target ht := env'.isSome_get?_of_prefix (env'.prefix_keys_set w value) (h.kept target ht)
  order := h.order.trans (env'.prefix_keys_set w value)
  once hdistinct := (h.once hdistinct).set hname hscalar value

/-- The counter and the error are outside the frame. -/
theorem Confined.elsewhere (h : Confined tree env env') (n : Int) (message : String) :
    Confined tree env { env' with nextLine := n, error := message } :=
  ⟨h.name, h.others, h.kept, h.order, h.once⟩

/-! ## Runs -/

/-- A property of environments alone, whatever the values are. -/
theorem Invariant.ofChanges {p : Node → Bool} {I : Environment → Prop}
    (hstep : ∀ {op a}, p (.unary op (.value a)) = true → op.isStep = true → a.isName = true →
      a.collection? = none → ∀ {env}, I env → ∀ n, I (env.set a (.number n)))
    (hassign : ∀ {target op e}, p (.assignment target op e) = true → target.collection? = none →
      ∀ {env value}, I env → I (env.set target value))
    (hjump : ∀ {e}, p (.goto e) = true → ∀ {env}, I env → ∀ n, I { env with nextLine := n }) :
    Invariant p I fun _ => True where
  number _ := trivial
  text _ := trivial
  misfit _ := trivial
  join _ _ := trivial
  read _ _ := trivial
  step := hstep
  assign hp hscalar _ _ henv _ := hassign hp hscalar henv
  jump := hjump

theorem invariant_confined (hnames : tree.every assignsName = true) (env : Environment) :
    Invariant (fun m => decide (m ∈ tree.parts)) (Confined tree env) fun _ => True := by
  refine .ofChanges ?_ ?_ ?_
  · intro op a hp hstep hname hscalar env' henv n
    exact henv.set (mem_written_of_step (by simpa using hp) hstep) hname hscalar _
  · intro target op e hp hscalar env' value henv
    have hpart : .assignment target op e ∈ tree.parts := by simpa using hp
    have hname : target.isName = true := (every_iff_parts _ tree).mp hnames _ hpart
    exact henv.set (mem_written_of_assignment hpart) hname hscalar _
  · intro e _ env' henv n
    exact henv.elsewhere n env'.error

theorem invariant_error (message : String) :
    Invariant (fun _ => true) (fun env => env.error = message) fun _ => True :=
  .ofChanges (fun _ _ _ _ _ henv _ => henv) (fun _ _ _ _ henv => henv) fun _ _ henv _ => henv

theorem invariant_counter (n : Int) :
    Invariant isJumpless (fun env => env.nextLine = n) fun _ => True :=
  .ofChanges (fun _ _ _ _ _ henv _ => henv) (fun _ _ _ _ henv => henv) nofun

theorem confined_runProgram {program : Node} (hnames : program.every assignsName = true)
    (steps : Int) (env : Environment) :
    Confined program env (runProgram program steps env).env := by
  have hinvariant := (invariant_confined hnames env).runProgram
    (fun _ message h => h.elsewhere _ message) (fun _ n h => h.elsewhere n _)
    program.every_mem_parts steps
  exact (hinvariant env (.refl program env)).1

/-- Further lines run from where the first ones stopped. -/
theorem confined_runLines_add {lines : List Node}
    (hnames : (Node.program lines).every assignsName = true) (first more : Nat)
    (env : Environment) :
    Confined (.program lines) (runLines lines first env).env
      (runLines lines (first + more) env).env := by
  induction more with
  | zero => exact .refl _ _
  | succ more ih =>
    rw [← Nat.add_assoc, runLines_succ]
    cases hran : (runLines lines (first + more) env).result with
    | error e =>
      rw [env_bind_error hran]
      exact ih
    | ok _ =>
      rw [env_bind hran]
      have hparts := (Node.program lines).every_mem_parts
      simp only [every, Bool.and_eq_true] at hparts
      have hnext := (invariant_confined hnames (runLines lines first env).env).runNext
        (fun _ message h => h.elsewhere _ message) (fun _ n h => h.elsewhere n _) hparts.2
      exact (hnext _ ih).1

theorem confined_runProgram_le {program : Node} (hnames : program.every assignsName = true)
    {steps steps' : Int} (hle : steps ≤ steps') (env : Environment) :
    Confined program (runProgram program steps env).env (runProgram program steps' env).env := by
  unfold runProgram
  split
  · exact .refl _ _
  · next lines _ =>
    obtain ⟨more, hmore⟩ := Nat.le.dest (Int.toNat_le_toNat hle)
    rw [← hmore]
    exact confined_runLines_add hnames _ more env
  · exact .refl _ _

/-- A line whose assignments are to names changes only the variables that it writes, and the
    counter if there is a jump in it, whether it runs to its end or fails. A program changes
    only the variables that it writes, and from each of its steps on the store only grows. -/
theorem lines_and_programs_confined :
    (∀ (line : Node) (env : Environment), line.every assignsName = true →
      Confined line env (runLine line env).env ∧ (runLine line env).env.error = env.error ∧
        (line.every isJumpless = true → (runLine line env).env.nextLine = env.nextLine)) ∧
      ∀ (program : Node) (env : Environment), program.every assignsName = true →
        ∀ steps steps' : Int, steps ≤ steps' →
          Confined program env (runProgram program steps env).env ∧
            Confined program (runProgram program steps env).env
              (runProgram program steps' env).env := by
  refine ⟨fun line env hnames => ⟨?_, ?_, fun hjumpless => ?_⟩, fun program env hnames => ?_⟩
  · have hconfined := (invariant_confined hnames env).runLine line.every_mem_parts
    exact (hconfined env (.refl line env)).1
  · have hevery : line.every (fun _ => true) = true := (every_iff_parts _ line).mpr fun _ _ => rfl
    exact ((invariant_error env.error).runLine hevery env rfl).1
  · exact ((invariant_counter env.nextLine).runLine hjumpless env rfl).1
  · intro steps steps' hle
    exact ⟨confined_runProgram hnames steps env, confined_runProgram_le hnames hle env⟩

/-- A shared variable with a number for its name, as a document may have it. -/
def numbered (name : Json) : Node := .misfit (.name true) name

/-- The variable is assigned under one of its names and stepped under another. Then an operator
    that is no assignment ends the line, behind a step in its expression. -/
def oddLine : Node :=
  .line
    [.assignment (numbered (.int 1)) .addAssign (.number .one),
      .evaluation (.unary .postIncrement (.value (numbered (.bool true)))),
      .assignment (.identifier ⟨"a", false⟩) .not
        (.unary .preDecrement (.value (.identifier ⟨"b", true⟩)))]

/-- A variable that the line does not write, and the one that it does, under a third name. -/
def oddEnvironment : Environment :=
  ({ error := "an old one", store := ⟨[], List.nodup_nil⟩ : Environment }.set
    (.identifier ⟨"b", false⟩) (.text "kept")).set
    (numbered (.float 0x3ff0000000000000)) (.number .one)

/-- The line fails. The local variable is left alone, the shared one is kept under its old
    name, and the one that was stepped last has been added. -/
theorem lines_and_programs_confined_oddLine :
    (runLine oddLine oddEnvironment).result = .error (.tree (.notAnAssignment .not)) ∧
      (runLine oddLine oddEnvironment).env.get? (.identifier ⟨"b", false⟩) =
        some (.text "kept") ∧
      (runLine oddLine oddEnvironment).env.error = "an old one" ∧
      (runLine oddLine oddEnvironment).env.nextLine = 1 ∧
      (runLine oddLine oddEnvironment).env.store.keys =
        [.identifier ⟨"b", false⟩, numbered (.float 0x3ff0000000000000),
          .identifier ⟨"b", true⟩] ∧
      Confined (.program [oddLine]) oddEnvironment
        (runProgram (.program [oddLine]) 2 oddEnvironment).env := by
  obtain ⟨hline, hprogram⟩ := lines_and_programs_confined
  obtain ⟨hconfined, herror, hcounter⟩ := hline oddLine oddEnvironment (by decide)
  have hlocal : ∀ w ∈ oddLine.written, (Node.identifier ⟨"b", false⟩).agrees w = false := by
    decide +kernel
  have hkept : oddEnvironment.get? (.identifier ⟨"b", false⟩) = some (.text "kept") := by
    decide +kernel
  obtain ⟨hrun, -⟩ := hprogram (.program [oddLine]) oddEnvironment (by decide) 2 3 (by decide)
  exact ⟨by decide +kernel, (hconfined.others _ hlocal).trans hkept, herror,
    hcounter (by decide), by decide +kernel, hrun⟩

end Run

end Yolol
