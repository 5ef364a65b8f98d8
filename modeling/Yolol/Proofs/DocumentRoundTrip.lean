-- SUMMARY: A tree that is written as a document and read again is the same tree.
import Yolol.Node.Document
import Yolol.Proofs.NumberText
import Yolol.Proofs.Precedence

/-!
# Reading a document again

Every node names its type and has all fields of that type in its document, so reading
finds each of them again, whatever node stands in it. Only a misfit that holds a text
would come back as something else: with a text in the place of a text it is none.
Reading builds no such misfit, so what was read once is not changed by writing it.
-/

namespace Yolol.Node

/-! ## Fields -/

theorem val_field? (key : String) (fields : Fields) :
    (Json.field? key fields).map (·.val) = fields.lookup key := by
  induction fields with
  | nil => rfl
  | cons field fields ih =>
    obtain ⟨k, j⟩ := field
    by_cases h : k = key
    · simp [Json.field?, h]
    · have h' : (key == k) = false := by simpa using Ne.symm h
      simp [Json.field?, List.lookup_cons, h, h', ← ih, Function.comp_def]

/-- Reading a field depends on nothing but its value. -/
theorem elim_field? {α : Type} (key : String) (fields : Fields) (absent : α) (found : Json → α) :
    (Json.field? key fields).elim absent (fun j => found j.val) =
      (fields.lookup key).elim absent found := by
  rw [← val_field?]
  cases Json.field? key fields <;> rfl

theorem requiredField_eq (key : String) (fields : Fields) :
    requiredField key fields = (fields.lookup key).elim (.error (.missingField key)) .ok := by
  rw [← elim_field?, requiredField]
  cases Json.field? key fields <;> rfl

theorem flagField_eq (key : String) (fields : Fields) :
    flagField key fields = (fields.lookup key).elim false Json.isTruthy := by
  rw [← elim_field?, flagField]
  cases Json.field? key fields <;> rfl

theorem child_eq (key : String) (fields : Fields) :
    child key fields = (fields.lookup key).elim (.error (.missingField key)) ofJson := by
  rw [← elim_field?, child]
  cases Json.field? key fields <;> rfl

theorem children_eq (key : String) (fields : Fields) :
    children key fields = (fields.lookup key).elim (.error (.missingField key)) items := by
  rw [← elim_field?, children]
  cases Json.field? key fields <;> rfl

theorem optionalChildren_eq (key : String) (fields : Fields) :
    optionalChildren key fields =
      (fields.lookup key).elim (.ok none) fun j =>
        if j.isNull then .ok none else some <$> items j := by
  rw [← elim_field?, optionalChildren]
  cases Json.field? key fields <;> rfl

/-! ## Objects by their type -/

/-- The tree of an object of the given type. -/
def ofShape (fields : Fields) : Shape → Except DocumentFault Node
  | .number => return .number (← numberField fields)
  | .text => return ofContent .text .text (← requiredField "value" fields)
  | .identifier =>
    let shared := flagField "is_global" fields
    return ofContent (.name shared) (.identifier ⟨·, shared⟩) (← requiredField "name" fields)
  | .group => return .group (← child "expr" fields)
  | .value => return .value (← child "value" fields)
  | .unary => do
    let op ← operatorField fields
    return .unary op (← child "operand" fields)
  | .binary => do
    let op ← operatorField fields
    let left ← child "left" fields
    return .binary op left (← child "right" fields)
  | .comment => return ofContent .comment .comment (← requiredField "text" fields)
  | .goto => return .goto (← child "expr" fields)
  | .conditional => do
    let condition ← child "condition" fields
    let body ← children "body" fields
    match ← optionalChildren "else_body" fields with
    | none => return .ifThen condition body
    | some otherwise => return .ifElse condition body otherwise
  | .assignment => do
    let target ← child "target" fields
    let op ← operatorField fields
    return .assignment target op (← child "expr" fields)
  | .evaluation => return .evaluation (← child "expr" fields)
  | .line => return .line (← children "statements" fields)
  | .program => return .program (← children "lines" fields)

theorem ofJson_obj (fields : Fields) :
    ofJson (.obj fields) = shapeField fields >>= ofShape fields := by
  rw [ofJson]
  cases shapeField fields with
  | error f => rfl
  | ok shape => cases shape <;> rfl

theorem shapeField_object (shape : Shape) (fields : Fields) :
    shapeField (("type", .str shape.name) :: fields) = .ok shape := by
  cases shape <;> rfl

theorem ofJson_object (shape : Shape) (fields : Fields) :
    ofJson (object shape fields) = ofShape (("type", .str shape.name) :: fields) shape := by
  rw [object, ofJson_obj, shapeField_object]
  rfl

theorem ofName?_name (op : Operator) : Operator.ofName? op.name = some op := by
  cases op <;> rfl

theorem requiredField_found {key : String} {fields : Fields} {j : Json}
    (h : fields.lookup key = some j) : requiredField key fields = .ok j := by
  rw [requiredField_eq, h]
  rfl

theorem operatorField_found {fields : Fields} {op : Operator}
    (h : fields.lookup "op" = some (.str op.name)) : operatorField fields = .ok op := by
  rw [operatorField, requiredField_found h]
  simp only [bind, Except.bind, ofName?_name]

theorem numberField_found {fields : Fields} {n : Number}
    (h : fields.lookup "value" = some (.str n.toLiteral)) : numberField fields = .ok n := by
  have htext : textField "value" fields = .ok n.toLiteral := by
    rw [textField, requiredField_found h]
    rfl
  rw [numberField, htext]
  simp only [bind, Except.bind]
  rw [Number.ofLiteral_toLiteral]

theorem child_found {key : String} {fields : Fields} {j : Json} {n : Node}
    (h : fields.lookup key = some j) (hn : ofJson j = .ok n) : child key fields = .ok n := by
  rw [child_eq, h]
  exact hn

theorem children_found {key : String} {fields : Fields} {js : List Json} {ns : List Node}
    (h : fields.lookup key = some (.arr js)) (hns : ofJsonAll js = .ok ns) :
    children key fields = .ok ns := by
  rw [children_eq, h, ← hns]
  exact items.eq_1 js

theorem optionalChildren_found {key : String} {fields : Fields} {js : List Json} {ns : List Node}
    (h : fields.lookup key = some (.arr js)) (hns : ofJsonAll js = .ok ns) :
    optionalChildren key fields = .ok (some ns) := by
  have hitems : items (.arr js) = .ok ns := (items.eq_1 js).trans hns
  rw [optionalChildren_eq, h]
  show some <$> items (.arr js) = _
  rw [hitems]
  rfl

/-! ## Writing, then reading -/

/-- A misfit holds something that is no text. -/
def isGenuine : Node → Bool
  | .misfit _ (.str _) => false
  | _ => true

theorem ofContent_misfit {role : Role} {content : Json}
    (h : (Node.misfit role content).isGenuine = true) (make : String → Node) :
    ofContent role make content = .misfit role content := by
  cases content with
  | str s => cases h
  | _ => rfl

mutual
/-- The document of a tree is read as that tree. -/
theorem ofJson_toJson (n : Node) (h : n.every isGenuine = true) : ofJson n.toJson = .ok n := by
  match n with
  | .missing => rw [toJson, ofJson]
  | .misfit .comment content =>
    rw [toJson, ofJson_object, ofShape, requiredField_found rfl]
    exact congrArg Except.ok (ofContent_misfit h _)
  | .misfit .text content =>
    rw [toJson, ofJson_object, ofShape, requiredField_found rfl]
    exact congrArg Except.ok (ofContent_misfit h _)
  | .misfit (.name shared) content =>
    rw [toJson, ofJson_object, ofShape, requiredField_found rfl, flagField_eq]
    exact congrArg Except.ok (ofContent_misfit h _)
  | .number n =>
    rw [toJson, ofJson_object, ofShape, numberField_found rfl]
    rfl
  | .text s =>
    rw [toJson, ofJson_object, ofShape, requiredField_found rfl]
    rfl
  | .comment s =>
    rw [toJson, ofJson_object, ofShape, requiredField_found rfl]
    rfl
  | .identifier id =>
    rw [toJson, ofJson_object, ofShape, requiredField_found rfl, flagField_eq]
    rfl
  | .group a | .value a | .goto a | .evaluation a =>
    obtain ⟨-, ha⟩ := Bool.and_eq_true_iff.mp h
    rw [toJson, ofJson_object, ofShape, child_found rfl (ofJson_toJson a ha)]
    rfl
  | .unary op a =>
    obtain ⟨-, ha⟩ := Bool.and_eq_true_iff.mp h
    rw [toJson, ofJson_object, ofShape, operatorField_found rfl,
      child_found rfl (ofJson_toJson a ha)]
    rfl
  | .binary op a b =>
    obtain ⟨-, h⟩ := Bool.and_eq_true_iff.mp h
    obtain ⟨ha, hb⟩ := Bool.and_eq_true_iff.mp h
    rw [toJson, ofJson_object, ofShape, operatorField_found rfl,
      child_found rfl (ofJson_toJson a ha), child_found rfl (ofJson_toJson b hb)]
    rfl
  | .assignment a op b =>
    obtain ⟨-, h⟩ := Bool.and_eq_true_iff.mp h
    obtain ⟨ha, hb⟩ := Bool.and_eq_true_iff.mp h
    rw [toJson, ofJson_object, ofShape, operatorField_found rfl,
      child_found rfl (ofJson_toJson a ha), child_found rfl (ofJson_toJson b hb)]
    rfl
  | .ifThen c body =>
    obtain ⟨-, h⟩ := Bool.and_eq_true_iff.mp h
    obtain ⟨hc, hbody⟩ := Bool.and_eq_true_iff.mp h
    rw [toJson, ofJson_object, ofShape, child_found rfl (ofJson_toJson c hc),
      children_found rfl (ofJsonAll_toJsonAll body hbody), optionalChildren_eq]
    rfl
  | .ifElse c body otherwise =>
    obtain ⟨-, h⟩ := Bool.and_eq_true_iff.mp h
    obtain ⟨hc, h⟩ := Bool.and_eq_true_iff.mp h
    obtain ⟨hbody, hotherwise⟩ := Bool.and_eq_true_iff.mp h
    rw [toJson, ofJson_object, ofShape, child_found rfl (ofJson_toJson c hc),
      children_found rfl (ofJsonAll_toJsonAll body hbody),
      optionalChildren_found rfl (ofJsonAll_toJsonAll otherwise hotherwise)]
    rfl
  | .line as | .program as =>
    obtain ⟨-, has⟩ := Bool.and_eq_true_iff.mp h
    rw [toJson, ofJson_object, ofShape, children_found rfl (ofJsonAll_toJsonAll as has)]
    rfl

theorem ofJsonAll_toJsonAll (as : List Node) (h : everyAll isGenuine as = true) :
    ofJsonAll (toJsonAll as) = .ok as := by
  match as with
  | [] => rw [toJsonAll, ofJsonAll]
  | a :: as =>
    obtain ⟨ha, has⟩ := Bool.and_eq_true_iff.mp h
    rw [toJsonAll, ofJsonAll, ofJson_toJson a ha, ofJsonAll_toJsonAll as has]
    rfl
end

/-! ## Reading builds no misfit with a text -/

theorem ok_of_bind_eq_ok {α β : Type} {x : Except DocumentFault α}
    {f : α → Except DocumentFault β} {b : β} (h : x >>= f = .ok b) :
    ∃ a, x = .ok a ∧ f a = .ok b := by
  cases x with
  | error e => cases h
  | ok a => exact ⟨a, rfl, h⟩

theorem isGenuine_ofContent {role : Role} {make : String → Node}
    (hmake : ∀ s, (make s).every isGenuine = true) (content : Json) :
    (ofContent role make content).every isGenuine = true := by
  cases content with
  | str s => exact hmake s
  | _ => rfl

theorem sizeOf_lt_of_lookup {key : String} {fields : Fields} {j : Json}
    (h : fields.lookup key = some j) : sizeOf j < sizeOf fields := by
  rw [← val_field?] at h
  cases hfield : Json.field? key fields with
  | none => simp [hfield] at h
  | some found =>
    rw [hfield] at h
    cases h
    exact found.property

/-- Whatever document is read as a tree, if it is smaller than `size`, that tree keeps no
    text in a misfit. -/
def GenuineBelow (size : Nat) : Prop :=
  ∀ j : Json, sizeOf j < size → ∀ n, ofJson j = .ok n → n.every isGenuine = true

section
variable {key : String} {fields : Fields}

theorem GenuineBelow.child (ih : GenuineBelow (sizeOf fields)) {n : Node}
    (h : Node.child key fields = .ok n) : n.every isGenuine = true := by
  rw [child_eq] at h
  cases hlookup : fields.lookup key with
  | none => rw [hlookup] at h; cases h
  | some j =>
    rw [hlookup] at h
    exact ih j (sizeOf_lt_of_lookup hlookup) n h

theorem GenuineBelow.ofJsonAll {size : Nat} (ih : GenuineBelow size) {js : List Json}
    {ns : List Node} (hsize : sizeOf js < size) (h : Node.ofJsonAll js = .ok ns) :
    everyAll isGenuine ns = true := by
  induction js generalizing ns with
  | nil =>
    rw [Node.ofJsonAll] at h
    cases h
    rfl
  | cons j js ihjs =>
    have hj : sizeOf j < size := by simp at hsize; omega
    have hjs : sizeOf js < size := by simp at hsize; omega
    rw [Node.ofJsonAll] at h
    obtain ⟨a, ha, h⟩ := ok_of_bind_eq_ok h
    obtain ⟨as, has, h⟩ := ok_of_bind_eq_ok h
    cases h
    exact Bool.and_eq_true_iff.mpr ⟨ih j hj a ha, ihjs hjs has⟩

theorem GenuineBelow.items {size : Nat} (ih : GenuineBelow size) {j : Json} {ns : List Node}
    (hsize : sizeOf j < size) (h : Node.items j = .ok ns) : everyAll isGenuine ns = true := by
  cases j with
  | arr js =>
    rw [Node.items] at h
    exact ih.ofJsonAll (by simp at hsize; omega) h
  | obj _ | str _ =>
    rw [Node.items] at h
    split at h <;> cases h
    rfl
  | _ => simp [Node.items] at h

theorem GenuineBelow.children (ih : GenuineBelow (sizeOf fields)) {ns : List Node}
    (h : Node.children key fields = .ok ns) : everyAll isGenuine ns = true := by
  rw [children_eq] at h
  cases hlookup : fields.lookup key with
  | none => rw [hlookup] at h; cases h
  | some j =>
    rw [hlookup] at h
    exact ih.items (sizeOf_lt_of_lookup hlookup) h

theorem GenuineBelow.optionalChildren (ih : GenuineBelow (sizeOf fields)) {ns : List Node}
    (h : Node.optionalChildren key fields = .ok (some ns)) : everyAll isGenuine ns = true := by
  rw [optionalChildren_eq] at h
  cases hlookup : fields.lookup key with
  | none => rw [hlookup] at h; cases h
  | some j =>
    rw [hlookup, Option.elim] at h
    split at h
    · cases h
    · cases hitems : Node.items j with
      | error e => rw [hitems] at h; cases h
      | ok as =>
        rw [hitems] at h
        cases h
        exact ih.items (sizeOf_lt_of_lookup hlookup) hitems

theorem GenuineBelow.ofShape (ih : GenuineBelow (sizeOf fields)) {shape : Shape} {n : Node}
    (h : Node.ofShape fields shape = .ok n) : n.every isGenuine = true := by
  cases shape with
  | number =>
    obtain ⟨value, -, h⟩ := ok_of_bind_eq_ok h
    cases h
    rfl
  | text | comment | identifier =>
    obtain ⟨content, -, h⟩ := ok_of_bind_eq_ok h
    cases h
    exact isGenuine_ofContent (fun _ => rfl) content
  | group | value | goto | evaluation =>
    obtain ⟨a, ha, h⟩ := ok_of_bind_eq_ok h
    cases h
    exact Bool.and_eq_true_iff.mpr ⟨rfl, ih.child ha⟩
  | unary =>
    obtain ⟨op, -, h⟩ := ok_of_bind_eq_ok h
    obtain ⟨a, ha, h⟩ := ok_of_bind_eq_ok h
    cases h
    exact Bool.and_eq_true_iff.mpr ⟨rfl, ih.child ha⟩
  | binary =>
    obtain ⟨op, -, h⟩ := ok_of_bind_eq_ok h
    obtain ⟨a, ha, h⟩ := ok_of_bind_eq_ok h
    obtain ⟨b, hb, h⟩ := ok_of_bind_eq_ok h
    cases h
    simp only [every, isGenuine, Bool.true_and, Bool.and_eq_true]
    exact ⟨ih.child ha, ih.child hb⟩
  | assignment =>
    obtain ⟨target, htarget, h⟩ := ok_of_bind_eq_ok h
    obtain ⟨op, -, h⟩ := ok_of_bind_eq_ok h
    obtain ⟨a, ha, h⟩ := ok_of_bind_eq_ok h
    cases h
    simp only [every, isGenuine, Bool.true_and, Bool.and_eq_true]
    exact ⟨ih.child htarget, ih.child ha⟩
  | conditional =>
    obtain ⟨condition, hcondition, h⟩ := ok_of_bind_eq_ok h
    obtain ⟨body, hbody, h⟩ := ok_of_bind_eq_ok h
    obtain ⟨otherwise, hotherwise, h⟩ := ok_of_bind_eq_ok h
    cases otherwise with
    | none =>
      cases h
      simp only [every, isGenuine, Bool.true_and, Bool.and_eq_true]
      exact ⟨ih.child hcondition, ih.children hbody⟩
    | some otherwise =>
      cases h
      simp only [every, isGenuine, Bool.true_and, Bool.and_eq_true]
      exact ⟨ih.child hcondition, ih.children hbody, ih.optionalChildren hotherwise⟩
  | line | program =>
    obtain ⟨as, has, h⟩ := ok_of_bind_eq_ok h
    cases h
    exact Bool.and_eq_true_iff.mpr ⟨rfl, ih.children has⟩
end

theorem genuineBelow (size : Nat) : GenuineBelow size := by
  -- A node's fields are smaller than the node, so reading them is reading smaller documents.
  induction size with
  | zero => intro j hsize; omega
  | succ size ih =>
    intro j hsize n h
    cases j with
    | null =>
      rw [ofJson] at h
      cases h
      rfl
    | obj fields =>
      have hfields : sizeOf fields ≤ size := by simp at hsize; omega
      have ihfields : GenuineBelow (sizeOf fields) := fun j hj => ih j (by omega)
      rw [ofJson_obj] at h
      obtain ⟨shape, -, h⟩ := ok_of_bind_eq_ok h
      exact ihfields.ofShape h
    | _ => simp [ofJson] at h

/-- What is read keeps no text in a misfit. -/
theorem isGenuine_of_ofJson {j : Json} {n : Node} (h : ofJson j = .ok n) :
    n.every isGenuine = true := genuineBelow (sizeOf j + 1) j (Nat.lt_succ_self _) n h

/-! ## The round trip -/

/-- Every tree is read again from its document, whatever stands in its fields, unless a
    misfit keeps a text in it; and a tree that was read from any document is read again
    from its own. -/
theorem document_readBack :
    (∀ n : Node, n.every isGenuine = true → ofJson n.toJson = .ok n) ∧
      ∀ (j : Json) (n : Node), ofJson j = .ok n → ofJson n.toJson = .ok n :=
  ⟨ofJson_toJson, fun _ _ h => ofJson_toJson _ (isGenuine_of_ofJson h)⟩

/-- A tree that no source text has: absent children, an empty else part beside an absent
    one, the least number, and nodes in places that are not theirs. -/
def oddTree : Node :=
  .line
    [.missing,
      .ifElse .missing [.number .least, .missing] [],
      .ifThen (.program [.line []]) [.text "", .comment "a\nb"],
      .assignment (.goto .missing) .factorial
        (.binary .not (.number (.ofRaw (-1))) (.identifier ⟨":x y", true⟩)),
      .misfit (.name true) (.arr [.null, .int 7])]

/-- A conditional that no tree is written as: its body is an empty text, its else part is
    left out, and it has a field that is not known. -/
def looseDocument : Json :=
  .obj [("note", .int 7), ("type", .str "If"), ("condition", .null), ("body", .str "")]

theorem ofJson_looseDocument : ofJson looseDocument = .ok (.ifThen .missing []) := by
  have hcondition : ofJson .null = .ok .missing := by rw [ofJson]
  have hbody : items (.str "") = .ok [] := by
    rw [items]
    rfl
  rw [looseDocument, ofJson_obj, show shapeField _ = .ok .conditional from rfl]
  show ofShape _ .conditional = _
  rw [ofShape, child_found rfl hcondition, children_eq, optionalChildren_eq]
  show (items (.str "") >>= fun body => pure (Node.ifThen .missing body)) = _
  rw [hbody]
  rfl

theorem document_readBack_oddTree :
    ofJson oddTree.toJson = .ok oddTree ∧
      ofJson (Node.ifThen .missing []).toJson = .ok (.ifThen .missing []) :=
  ⟨document_readBack.1 oddTree rfl, document_readBack.2 _ _ ofJson_looseDocument⟩

end Yolol.Node
