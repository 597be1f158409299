import Mathlib.Logic.Relation
import LineLang.Proofs.StoredTree
import LineLang.Subject

/-!
# Which data store trees

* `FieldRole`, `form?` : what each field of an object is for, by the kind of the object;
* `Subtree o p` : `p` stands where the object `o` stores a tree;
* `StoresTree` : `null`, and objects of a known kind whose fields fit their roles and whose subtrees store trees;
* `Fields.assemble_check` : an object is loaded by looking at its fields one after the other;
* `loads_obj` : what loading an object asks of it and of its subtrees;
* `loads_exactly_schema` : a datum is loaded if and only if it stores a tree;
* `load_after_store` : every tree is loaded from the datum that stores it.
-/

namespace LineLang

/-! ## The schema -/

inductive FieldRole where
  | token
  | sequence
  | part
  /-- A tree that may be left out. -/
  | optional
  | datum
  /-- A datum with an integer value. -/
  | number
  deriving DecidableEq, Repr

/-- The fields of an object with their roles. -/
abbrev Form := List (String × FieldRole)

/-- The fields of an object of the given kind, in the order in which they are read. -/
def form? : Json → Option Form
  | .str "Root" => some [("statements", .sequence)]
  | .str "AssignStatement" => some [("token", .token), ("name", .part), ("value", .optional)]
  | .str "PrintStatement" => some [("token", .token), ("value", .optional)]
  | .str "ExpressionStatement" => some [("token", .token), ("expression", .optional)]
  | .str "BlockStatement" => some [("token", .token), ("statements", .sequence)]
  | .str "IfExpression" =>
    some [("token", .token), ("condition", .optional), ("true_branch", .part), ("false_branch", .optional)]
  | .str "WhileExpression" => some [("token", .token), ("condition", .optional), ("body", .part)]
  | .str "Identifier" => some [("token", .token), ("name", .datum)]
  | .str "IntegerLiteral" => some [("token", .token), ("value", .number)]
  | .str "InfixExpression" =>
    some [("token", .token), ("left", .optional), ("operator", .datum), ("right", .optional)]
  | .str "PrefixExpression" => some [("token", .token), ("operator", .datum), ("right", .optional)]
  | _ => none

namespace Json

/-- The datum describes a token: its kind by name, and some literal. -/
def StoresToken (j : Json) : Prop :=
  ∃ (fields : List (String × Json)) (kind : Kind) (literal : Json), j = .obj fields ∧
    fields.lookup "type" = some (.str kind.name) ∧ fields.lookup "literal" = some literal

/-- The datum has an integer value: a finite number, a truth value, or a numeral. -/
inductive Integral : Json → Prop where
  | int (n : Int) : Integral (.num (.int n))
  | real (negative : Bool) (m : Nat) (e : Int) : Integral (.num (.real (.finite negative m e)))
  | bool (b : Bool) : Integral (.bool b)
  | numeral {s : String} {n : Int} (h : Numeral.read s = .ok n) : Integral (.str s)

end Json

namespace FieldRole

/-- Whether the field itself stores a tree. -/
def isTree : FieldRole → Bool
  | .part | .optional => true
  | _ => false

/-- The field, if it is there, suits its role, apart from the trees in it. -/
def Fits : FieldRole → Option Json → Prop
  | .token, j => ∃ t, j = some t ∧ t.StoresToken
  | .sequence, j => (∃ items, j = some (.arr items)) ∨ j = some (.str "") ∨ j = some (.obj [])
  | .part, j => ∃ p, j = some p
  | .optional, _ => True
  | .datum, j => ∃ p, j = some p
  | .number, j => ∃ p, j = some p ∧ p.Integral

end FieldRole

/-- The second datum stands where the first one, an object, stores a tree. -/
inductive Subtree : Json → Json → Prop where
  | field {fields : List (String × Json)} {kind j : Json} {form : Form} {name : String} {role : FieldRole}
    (hkind : fields.lookup "type" = some kind) (hform : form? kind = some form) (hfield : (name, role) ∈ form)
    (htree : role.isTree = true) (hj : fields.lookup name = some j) : Subtree (.obj fields) j
  | item {fields : List (String × Json)} {kind j : Json} {form : Form} {name : String} {items : List Json}
    (hkind : fields.lookup "type" = some kind) (hform : form? kind = some form) (hfield : (name, .sequence) ∈ form)
    (hitems : fields.lookup name = some (.arr items)) (hj : j ∈ items) : Subtree (.obj fields) j

inductive StoresTree : Json → Prop where
  | null : StoresTree .null
  | obj {fields : List (String × Json)} {kind : Json} {form : Form} (hkind : fields.lookup "type" = some kind)
    (hform : form? kind = some form) (hfits : ∀ f ∈ form, f.2.Fits (fields.lookup f.1))
    (hsub : ∀ j, Subtree (.obj fields) j → StoresTree j) : StoresTree (.obj fields)

/-! ## Tokens and numbers -/

theorem Token.exists_ofJson (j : Json) : (∃ t, Token.ofJson j = .ok t) ↔ j.StoresToken := by
  constructor
  · rintro ⟨t, h⟩
    unfold ofJson at h
    split at h
    · next fields =>
      split at h
      · cases h
      · next name hname =>
        split at h
        · cases h
        next kind hkind =>
        split at h
        · cases h
        next literal hliteral =>
        have hspelt : kind.name = name := by simpa using List.find?_some hkind
        exact ⟨fields, kind, literal, rfl, hspelt ▸ hname, hliteral⟩
      · cases h
      · cases h
      · cases h
    · cases h
  · rintro ⟨fields, kind, literal, rfl, hkind, hliteral⟩
    refine ⟨⟨kind, literal⟩, ?_⟩
    simp only [ofJson, hkind, Kind.ofName?_name, hliteral]

theorem Token.ofJson_ne_infinite (j : Json) : Token.ofJson j ≠ .error .infinite := by
  intro h
  unfold ofJson at h
  split at h
  · split at h
    · cases h
    · split at h
      · cases h
      · split at h <;> cases h
    · cases h
    · cases h
    · cases h
  · cases h

namespace Json

theorem exists_toInt (j : Json) : (∃ n, j.toInt = .ok n) ↔ j.Integral := by
  constructor
  · rintro ⟨n, h⟩
    unfold toInt at h
    split at h
    · next n' => exact .int n'
    · cases h
    · next x _ =>
      cases x with
      | nan => cases h
      | infinite negative => cases h
      | finite negative m e => exact .real negative m e
    · next b => exact .bool b
    · next s =>
      split at h
      · next m hm => exact .numeral hm
      · cases h
    · cases h
  · intro h
    cases h with
    | int n => exact ⟨n, rfl⟩
    | real negative m e => exact ⟨_, rfl⟩
    | bool b => exact ⟨_, rfl⟩
    | @numeral s n h =>
      refine ⟨n, ?_⟩
      simp only [toInt, h]

theorem toInt_infinite {j : Json} (h : j.toInt = .error .infinite) :
    ∃ negative, j = .num (.real (.infinite negative)) := by
  unfold toInt at h
  split at h
  · cases h
  · cases h
  · next x hx =>
    cases x with
    | nan => exact absurd rfl hx
    | infinite negative => exact ⟨negative, rfl⟩
    | finite negative m e => cases h
  · cases h
  · split at h <;> cases h
  · cases h

end Json

/-! ## One field after the other -/

/-- Looks at a field as its role asks, without keeping what it holds. -/
def FieldRole.check (fields : Fields) (name : String) : FieldRole → Except LoadFault Unit
  | .token => (fields.datum name >>= Token.ofJson).map fun _ => ()
  | .sequence => (fields.sequence name).map fun _ => ()
  | .part => (fields.part name).map fun _ => ()
  | .optional => (fields.optional name).map fun _ => ()
  | .datum => (fields.datum name).map fun _ => ()
  | .number => (fields.integer name).map fun _ => ()

/-- Looks at the fields of a form, in order. -/
def Form.check (fields : Fields) : Form → Except LoadFault Unit
  | [] => .ok ()
  | f :: form => do
    f.2.check fields f.1
    Form.check fields form

theorem Form.check_ok {fields : Fields} {form : Form} :
    form.check fields = .ok () ↔ ∀ f ∈ form, f.2.check fields f.1 = .ok () := by
  induction form with
  | nil => simp [check]
  | cons f form ih =>
    rw [List.forall_mem_cons, ← ih, check]
    cases f.2.check fields f.1 with
    | error e => simp [bind, Except.bind]
    | ok u => simp [bind, Except.bind]

theorem Form.check_error {fields : Fields} {form : Form} {e : LoadFault} (h : form.check fields = .error e) :
    ∃ f ∈ form, f.2.check fields f.1 = .error e := by
  induction form with
  | nil => cases h
  | cons f form ih =>
    rw [check] at h
    cases hf : f.2.check fields f.1 with
    | error e' =>
      rw [hf] at h
      exact ⟨f, List.mem_cons_self, hf.trans h⟩
    | ok u =>
      rw [hf] at h
      obtain ⟨f', hmem, hf'⟩ := ih h
      exact ⟨f', List.mem_cons_of_mem f hmem, hf'⟩

namespace Fields

def kind (fields : Fields) : Json :=
  match fields.lookup "type" with
  | some field => field.datum
  | none => .null

theorem discard_bind {α β : Type} {x : Except LoadFault α} {k : α → Except LoadFault β} {rest : Except LoadFault Unit}
    (h : ∀ a, (k a).map (fun _ => ()) = rest) :
    (x >>= k).map (fun _ => ()) = x.map (fun _ => ()) >>= fun _ => rest := by
  cases x with
  | error e => rfl
  | ok a => exact h a

/-- An object is loaded by looking at its fields one after the other. -/
theorem assemble_check (fields : Fields) : fields.assemble.map (fun _ => ()) =
    match form? fields.kind with
    | some form => form.check fields
    | none => .error (.unknownKind fields.kind) := by
  unfold assemble kind
  cases fields.lookup "type" with
  | none => rfl
  | some field =>
    dsimp only
    generalize field.datum = k
    split
    all_goals simp only [form?, Form.check, FieldRole.check]
    · exact discard_bind fun _ => rfl
    · exact discard_bind fun _ => discard_bind fun _ => discard_bind fun _ => rfl
    · exact discard_bind fun _ => discard_bind fun _ => rfl
    · exact discard_bind fun _ => discard_bind fun _ => rfl
    · exact discard_bind fun _ => discard_bind fun _ => rfl
    · exact discard_bind fun _ => discard_bind fun _ => discard_bind fun _ => discard_bind fun _ => rfl
    · exact discard_bind fun _ => discard_bind fun _ => discard_bind fun _ => rfl
    · exact discard_bind fun _ => discard_bind fun _ => rfl
    · exact discard_bind fun _ => discard_bind fun _ => rfl
    · exact discard_bind fun _ => discard_bind fun _ => discard_bind fun _ => discard_bind fun _ => rfl
    · exact discard_bind fun _ => discard_bind fun _ => discard_bind fun _ => rfl
    · rfl

end Fields

/-! ## What loading asks of an object -/

def Json.Loads (j : Json) : Prop := ∃ n, Node.ofJson j = .ok n

theorem discard_ok {α : Type} {x : Except LoadFault α} : x.map (fun _ => ()) = .ok () ↔ ∃ a, x = .ok a := by
  cases x with
  | error e => exact iff_of_false nofun (by rintro ⟨a, h⟩; cases h)
  | ok a => exact iff_of_true rfl ⟨a, rfl⟩

theorem discard_error {α : Type} {x : Except LoadFault α} {e : LoadFault} (h : x.map (fun _ => ()) = .error e) :
    x = .error e := by
  cases x with
  | error e' => exact congrArg Except.error (Except.error.inj h)
  | ok a => cases h

namespace Node

theorem lookup_readFields (name : String) : ∀ fields : List (String × Json),
    (readFields fields).lookup name = (fields.lookup name).map fun j => ⟨j, ofJson j, sequenceOf j⟩
  | [] => by rw [readFields]; rfl
  | (x, j) :: fields => by
    rw [readFields, List.lookup_cons, List.lookup_cons, lookup_readFields name fields]
    cases name == x <;> rfl

theorem ofJsonList_ok : ∀ js : List Json, (∃ ns, ofJsonList js = .ok ns) ↔ ∀ j ∈ js, j.Loads
  | [] => by simp [ofJsonList]
  | j :: js => by
    rw [List.forall_mem_cons, ← ofJsonList_ok js, ofJsonList, Json.Loads]
    cases ofJson j with
    | error e => simp [bind, Except.bind]
    | ok n => cases ofJsonList js <;> simp [bind, Except.bind, pure, Except.pure]

theorem ofJsonList_error {e : LoadFault} : ∀ {js : List Json}, ofJsonList js = .error e → ∃ j ∈ js, ofJson j = .error e
  | [], h => by
    rw [ofJsonList] at h
    cases h
  | j :: js, h => by
    rw [ofJsonList] at h
    cases hj : ofJson j with
    | error e' =>
      rw [hj] at h
      cases h
      exact ⟨j, List.mem_cons_self, hj⟩
    | ok n =>
      rw [hj] at h
      cases hjs : ofJsonList js with
      | error e' =>
        rw [hjs] at h
        cases h
        obtain ⟨i, hi, hie⟩ := ofJsonList_error hjs
        exact ⟨i, List.mem_cons_of_mem j hi, hie⟩
      | ok ns =>
        rw [hjs] at h
        cases h

theorem sequenceOf_ok (j : Json) : (∃ ns, sequenceOf j = .ok ns) ↔
    FieldRole.sequence.Fits (some j) ∧ ∀ items, j = .arr items → ∀ i ∈ items, i.Loads := by
  cases j with
  | arr items => simp [sequenceOf, FieldRole.Fits, ofJsonList_ok]
  | str s => by_cases h : s = "" <;> simp [sequenceOf, FieldRole.Fits, treesOfTexts, h]
  | obj fields => cases fields <;> simp [sequenceOf, FieldRole.Fits, treesOfTexts]
  | _ => simp [sequenceOf, FieldRole.Fits]

theorem sequenceOf_infinite {j : Json} (h : sequenceOf j = .error .infinite) :
    ∃ items, j = .arr items ∧ ∃ i ∈ items, ofJson i = .error .infinite := by
  cases j with
  | arr items =>
    rw [sequenceOf] at h
    exact ⟨items, rfl, ofJsonList_error h⟩
  | str s =>
    rw [sequenceOf, treesOfTexts] at h
    split at h <;> cases h
  | obj fields =>
    rw [sequenceOf, treesOfTexts] at h
    split at h <;> cases h
  | null | bool | num => simp [sequenceOf] at h

end Node

namespace FieldRole

/-- Looks at a datum, if it is there, as the role of the field `name` asks. -/
def look (name : String) : FieldRole → Option Json → Except LoadFault Unit
  | .optional, none => .ok ()
  | _, none => .error (.noField name)
  | .token, some j => (Token.ofJson j).map fun _ => ()
  | .sequence, some j => (Node.sequenceOf j).map fun _ => ()
  | .part, some j | .optional, some j => (Node.ofJson j).map fun _ => ()
  | .datum, some _ => .ok ()
  | .number, some j => j.toInt.map fun _ => ()

theorem check_eq_look (role : FieldRole) (fields : List (String × Json)) (name : String) :
    role.check (Node.readFields fields) name = role.look name (fields.lookup name) := by
  have hlookup := Node.lookup_readFields name fields
  cases role <;>
    simp only [check, Fields.integer, Fields.datum, Fields.sequence, Fields.part, Fields.optional, Fields.get,
      hlookup] <;>
    cases fields.lookup name <;> rfl

/-- A field is found to suit its role if it does and the trees in it are loaded. -/
theorem look_ok (role : FieldRole) (name : String) (j : Option Json) : role.look name j = .ok () ↔ role.Fits j ∧
    (role.isTree = true → ∀ p, j = some p → p.Loads) ∧
    (role = .sequence → ∀ items, j = some (.arr items) → ∀ p ∈ items, p.Loads) := by
  cases j with
  | none => cases role <;> simp [look, Fits]
  | some p =>
    cases role with
    | token => simpa [look, discard_ok, Fits, isTree] using Token.exists_ofJson p
    | sequence => simpa [look, discard_ok, isTree] using Node.sequenceOf_ok p
    | part => simp [look, discard_ok, Fits, isTree, Json.Loads]
    | optional => simp [look, discard_ok, Fits, isTree, Json.Loads]
    | datum => simp [look, Fits, isTree]
    | number => simpa [look, discard_ok, Fits, isTree] using Json.exists_toInt p

/-- Where an infinite number is met: in a tree, in a tree of a sequence, or as the number of the field. -/
theorem look_infinite {role : FieldRole} {name : String} {j : Option Json} (h : role.look name j = .error .infinite) :
    (role.isTree = true ∧ ∃ p, j = some p ∧ Node.ofJson p = .error .infinite) ∨
    (role = .sequence ∧ ∃ items, j = some (.arr items) ∧ ∃ p ∈ items, Node.ofJson p = .error .infinite) ∨
    role = .number ∧ ∃ negative, j = some (.num (.real (.infinite negative))) := by
  cases j with
  | none => cases role <;> cases h
  | some p =>
    cases role with
    | token => exact absurd (discard_error h) (Token.ofJson_ne_infinite p)
    | sequence =>
      obtain ⟨items, rfl, hitem⟩ := Node.sequenceOf_infinite (discard_error h)
      exact .inr (.inl ⟨rfl, items, rfl, hitem⟩)
    | part => exact .inl ⟨rfl, p, rfl, discard_error h⟩
    | optional => exact .inl ⟨rfl, p, rfl, discard_error h⟩
    | datum => cases h
    | number =>
      obtain ⟨negative, rfl⟩ := Json.toInt_infinite (discard_error h)
      exact .inr (.inr ⟨rfl, negative, rfl⟩)

end FieldRole

theorem kind_readFields (fields : List (String × Json)) :
    (Node.readFields fields).kind = (fields.lookup "type").getD .null := by
  rw [Fields.kind, Node.lookup_readFields]
  cases fields.lookup "type" <;> rfl

/-- Loading an object is looking at the fields of its form. -/
theorem ofJson_obj_check (fields : List (String × Json)) : (Node.ofJson (.obj fields)).map (fun _ => ()) =
    match form? ((fields.lookup "type").getD .null) with
    | some form => form.check (Node.readFields fields)
    | none => .error (.unknownKind ((fields.lookup "type").getD .null)) := by
  rw [Node.ofJson, Fields.assemble_check, kind_readFields]

/-- An object is loaded if its fields fit and its subtrees are loaded. -/
theorem loads_obj (fields : List (String × Json)) : (Json.obj fields).Loads ↔
    ∃ kind form, fields.lookup "type" = some kind ∧ form? kind = some form ∧
      (∀ f ∈ form, f.2.Fits (fields.lookup f.1)) ∧ ∀ j, Subtree (.obj fields) j → j.Loads := by
  rw [Json.Loads, ← discard_ok, ofJson_obj_check]
  cases hkind : fields.lookup "type" with
  | none => exact iff_of_false nofun (by rintro ⟨kind, form, h, -⟩; cases h)
  | some kind =>
    rw [Option.getD_some]
    cases hform : form? kind with
    | none =>
      refine iff_of_false nofun ?_
      rintro ⟨kind', form, hk, hf, -⟩
      obtain rfl := Option.some.inj hk
      rw [hform] at hf
      cases hf
    | some form =>
      simp only [Form.check_ok, FieldRole.check_eq_look, FieldRole.look_ok]
      constructor
      · intro h
        refine ⟨kind, form, rfl, hform, fun f hf => (h f hf).1, fun j hj => ?_⟩
        cases hj with
        | field hk hf hfield htree hj =>
          obtain rfl := Option.some.inj (hkind.symm.trans hk)
          obtain rfl := Option.some.inj (hform.symm.trans hf)
          exact (h _ hfield).2.1 htree j hj
        | item hk hf hfield hitems hj =>
          obtain rfl := Option.some.inj (hkind.symm.trans hk)
          obtain rfl := Option.some.inj (hform.symm.trans hf)
          exact (h _ hfield).2.2 rfl _ hitems j hj
      · rintro ⟨kind', form', hk, hf, hfits, hsub⟩
        obtain rfl := Option.some.inj hk
        obtain rfl := Option.some.inj (hform.symm.trans hf)
        rintro ⟨name, role⟩ hfield
        refine ⟨hfits _ hfield, fun htree j hj => hsub j (.field hkind hform hfield htree hj), ?_⟩
        rintro rfl items hitems j hj
        exact hsub j (.item hkind hform hfield hitems hj)

theorem Subtree.sizeOf_lt {o j : Json} (h : Subtree o j) : sizeOf j < sizeOf o := by
  have hfield : ∀ {fields : List (String × Json)} {name : String} {p : Json}, fields.lookup name = some p →
      sizeOf p < sizeOf (Json.obj fields) := by
    intro fields name p hp
    obtain ⟨front, back, rfl, -⟩ := List.lookup_eq_some_iff.1 hp
    have hmem : sizeOf (name, p) < sizeOf (front ++ (name, p) :: back) := List.sizeOf_lt_of_mem (by simp)
    simp only [Prod.mk.sizeOf_spec, Json.obj.sizeOf_spec] at hmem ⊢
    omega
  cases h with
  | field _ _ _ _ hj => exact hfield hj
  | item _ _ _ hitems hj =>
    have := hfield hitems
    have := List.sizeOf_lt_of_mem hj
    simp only [Json.arr.sizeOf_spec] at *
    omega

/-- A datum is loaded if and only if it stores a tree. -/
theorem loads_iff_storesTree (o : Json) : o.Loads ↔ StoresTree o := by
  constructor
  · intro h
    induction hn : sizeOf o using Nat.strongRecOn generalizing o with
    | ind n ih =>
    cases o with
    | null => exact .null
    | obj fields =>
      obtain ⟨kind, form, hkind, hform, hfits, hsub⟩ := (loads_obj fields).1 h
      exact .obj hkind hform hfits fun j hj => ih _ (hn ▸ hj.sizeOf_lt) j (hsub j hj) rfl
    | bool | num | str | arr => simp [Json.Loads, Node.ofJson] at h
  · intro h
    induction h with
    | null => exact ⟨.missing, by rw [Node.ofJson]⟩
    | obj hkind hform hfits hsub ih => exact (loads_obj _).2 ⟨_, _, hkind, hform, hfits, ih⟩

/-! ## Infinite numbers -/

/-- The datum is a number whose value is infinite. -/
def Json.InfiniteNumber (j : Json) : Prop :=
  ∃ (fields : List (String × Json)) (negative : Bool), j = .obj fields ∧
    fields.lookup "type" = some (.str "IntegerLiteral") ∧
    fields.lookup "value" = some (.num (.real (.infinite negative)))

theorem form?_number {kind : Json} {form : Form} {name : String} (hform : form? kind = some form)
    (hfield : (name, .number) ∈ form) : kind = .str "IntegerLiteral" ∧ name = "value" := by
  unfold form? at hform
  split at hform
  case h_9 =>
    obtain rfl := Option.some.inj hform
    simpa using hfield
  case h_12 => cases hform
  all_goals
    obtain rfl := Option.some.inj hform
    simp at hfield

theorem infinite_of_obj {fields : List (String × Json)} (h : Node.ofJson (.obj fields) = .error .infinite) :
    (Json.obj fields).InfiniteNumber ∨ ∃ j, Subtree (.obj fields) j ∧ Node.ofJson j = .error .infinite := by
  have hcheck := ofJson_obj_check fields
  rw [h] at hcheck
  cases hkind : fields.lookup "type" with
  | none =>
    rw [hkind] at hcheck
    cases hcheck
  | some kind =>
    rw [hkind, Option.getD_some] at hcheck
    cases hform : form? kind with
    | none =>
      rw [hform] at hcheck
      cases hcheck
    | some form =>
      rw [hform] at hcheck
      obtain ⟨⟨name, role⟩, hfield, hlook⟩ := Form.check_error hcheck.symm
      rw [FieldRole.check_eq_look] at hlook
      rcases FieldRole.look_infinite hlook with ⟨htree, j, hj, hinf⟩ | ⟨rfl, items, hitems, j, hj, hinf⟩ |
        ⟨rfl, negative, hvalue⟩
      · exact .inr ⟨j, .field hkind hform hfield htree hj, hinf⟩
      · exact .inr ⟨j, .item hkind hform hfield hitems hj, hinf⟩
      · obtain ⟨rfl, rfl⟩ := form?_number hform hfield
        exact .inl ⟨fields, negative, rfl, hkind, hvalue⟩

/-- An infinite number is met only where one is stored. -/
theorem exists_infiniteNumber {o : Json} (h : Node.ofJson o = .error .infinite) :
    ∃ p, Relation.ReflTransGen Subtree o p ∧ p.InfiniteNumber := by
  induction hn : sizeOf o using Nat.strongRecOn generalizing o with
  | ind n ih =>
  cases o with
  | obj fields =>
    rcases infinite_of_obj h with hinf | ⟨j, hsub, hj⟩
    · exact ⟨_, .refl, hinf⟩
    · obtain ⟨p, hp, hinf⟩ := ih _ (hn ▸ hsub.sizeOf_lt) hj rfl
      exact ⟨p, .head hsub hp, hinf⟩
  | null | bool | num | str | arr => simp [Node.ofJson] at h

/-! ## Loading -/

theorem LoadFault.refusal_overflow {e : LoadFault} (h : e.refusal = .overflow) : e = .infinite := by
  cases e with
  | infinite => rfl
  | _ => cases h

/-- A datum is loaded if and only if it stores a tree. If it does not, it is refused for the kind or the value of a
datum in it or for a name that is not there, or as too large, and this only if a number of its tree is infinite. -/
theorem loads_exactly_schema (o : Json) :
    ((∃ n, Node.ofJson o = .ok n) ↔ StoresTree o) ∧
    (StoresTree o ∨ ∃ e, Node.ofJson o = .error e ∧
      (e.refusal = .kind ∨ e.refusal = .value ∨ e.refusal = .key ∨
        e.refusal = .overflow ∧ ∃ p, Relation.ReflTransGen Subtree o p ∧ p.InfiniteNumber)) := by
  refine ⟨loads_iff_storesTree o, ?_⟩
  cases h : Node.ofJson o with
  | ok n => exact .inl ((loads_iff_storesTree o).1 ⟨n, h⟩)
  | error e =>
    refine .inr ⟨e, rfl, ?_⟩
    cases hr : e.refusal with
    | kind => exact .inl rfl
    | value => exact .inr (.inl rfl)
    | key => exact .inr (.inr (.inl rfl))
    | overflow =>
      obtain rfl := LoadFault.refusal_overflow hr
      exact .inr (.inr (.inr ⟨rfl, exists_infiniteNumber h⟩))

/-! ## Storing what was loaded -/

/-- Loads a datum and stores the tree again. -/
def restored (j : Json) : Except LoadFault Json := do
  let n ← Node.ofJson j
  return n.toJson

theorem restored_toJson (n : Node) : restored n.toJson = .ok n.toJson := by
  rw [restored, Node.ofJson_toJson]
  rfl

/-- Every tree can be stored, and is loaded from what was stored. So a datum that stores a tree, loaded and stored
again, is from then on what it was. -/
theorem load_after_store :
    (∀ n : Node, ∃ j, (Subject.tree n).toJson = .ok j ∧ Node.ofJson j = .ok n) ∧
    ∀ j, StoresTree j → ∃ k, restored j = .ok k ∧ restored k = .ok k := by
  refine ⟨fun n => ⟨n.toJson, rfl, Node.ofJson_toJson n⟩, fun j hj => ?_⟩
  obtain ⟨n, hn⟩ := (loads_iff_storesTree j).2 hj
  refine ⟨n.toJson, ?_, restored_toJson n⟩
  rw [restored, hn]
  rfl

/-- An optional field is left out, another one is of no use, and the value is a numeral. -/
example :
    restored (.obj [("note", .arr []), ("type", .str "PrintStatement"),
      ("token", .obj [("literal", .null), ("type", .str "PRINT")]),
      ("value", .obj [("value", .str " +1_0"), ("type", .str "IntegerLiteral"),
        ("token", .obj [("type", .str "NUM"), ("literal", .bool true)])])]) =
    .ok (.obj [("type", .str "PrintStatement"), ("token", .obj [("type", .str "PRINT"), ("literal", .null)]),
      ("value", .obj [("type", .str "IntegerLiteral"),
        ("token", .obj [("type", .str "NUM"), ("literal", .bool true)]), ("value", .ofInt 10)])]) := by
  rfl

end LineLang
