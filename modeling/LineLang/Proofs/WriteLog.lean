import LineLang.Proofs.Assignments
import LineLang.Proofs.JsonText
import LineLang.Proofs.Meaning

/-!
# The trace as a log of writes

From level 2 on a trace tells of every assignment. Its messages are enough to follow the store: whoever has the store as
text can bring it up to date from the messages alone.

* `Store.rendering`, `Store.line` : a store as texts, name by name, and as one line;
* `assignment?` : the name and the text that a message gives;
* `replay` : the messages carried out on a rendered store;
* `WrittenApart` : no two names are written alike. Texts are their own writing, but the missing name is written `None`;
* `Leads.replay_eq`, `Leads.exists_point` : the replayed log at the end of a run, and right behind each assignment;
* `Node.idents` : the names that the identifiers of a tree stand for;
* `log_replays` : for every tree and every state;
* `missing_name_replays_as_text` : a tree that sets the missing name and the text `None`.
-/

namespace LineLang

/-! ## Stores as text -/

/-- A store as texts: its names in order, each with the text of its value. -/
def Store.rendering (s : Store) : List (String × String) := s.entries.map fun e => (e.1.shown, e.2.text)

def Store.line (r : List (String × String)) : String :=
  "Environment(" ++ ", ".intercalate (r.map fun e => e.1 ++ "=" ++ e.2) ++ ")"

theorem Store.listed_eq_line (s : Store) : s.listed = line s.rendering := by
  unfold listed line rendering
  rw [List.map_map]
  rfl

/-- Sets the text of a name: in its place if it is there, else behind the others. -/
def put (name text : String) : List (String × String) → List (String × String)
  | [] => [(name, text)]
  | entry :: entries => if entry.1 = name then (name, text) :: entries else entry :: put name text entries

theorem put_rendering {x : Json} {s : Store} (h : ∀ y ∈ s.names, y.shown = x.shown → y = x) (v : Value) :
    put x.shown v.text s.rendering = (s.set x v).rendering := by
  obtain ⟨entries⟩ := s
  unfold Store.rendering Store.set
  dsimp only
  induction entries with
  | nil => rfl
  | cons e es ih =>
    obtain ⟨he, hes⟩ := List.forall_mem_cons.1 h
    rw [List.map_cons, put, Store.setEntry]
    by_cases hx : e.1 = x
    · rw [if_pos (congrArg Json.shown hx), if_pos hx, List.map_cons]
    · rw [if_neg (mt he hx), if_neg hx, List.map_cons, ih hes]

/-! ## Messages -/

/-- The name and the text that a message about an assignment gives: the text stands behind the last blank, and the name
between the first word and the sign before the text. -/
def assignment? (message : String) : Option (String × String) :=
  if "assign ".toList.isPrefixOf message.toList then
    let body := message.toList.drop 7
    some (String.ofList ((body.rdropWhile (· ≠ ' ')).rdrop 3), String.ofList (body.rtakeWhile (· ≠ ' ')))
  else none

/-- The messages carried out one after the other on a rendered store. Those that are about no assignment do nothing. -/
def replay (messages : List String) (r : List (String × String)) : List (String × String) :=
  messages.foldl (fun r m => (assignment? m).elim r fun a => put a.1 a.2 r) r

theorem blank_not_mem_text (v : Value) : ' ' ∉ v.text.toList := by
  induction v with
  | missing => decide
  | printed v ih => exact ih
  | int n =>
    have hdigits : ' ' ∉ Text.Decimal.digitsOf n.natAbs := fun h =>
      absurd (Text.Decimal.digitsOf_mem _ _ h) (by decide)
    unfold Value.text Text.Decimal.ofInt
    rw [String.toList_ofList]
    split
    · exact fun h => (List.mem_cons.1 h).elim (by decide) hdigits
    · exact hdigits

theorem assignment?_message (x : Json) (v : Value) :
    assignment? (Event.assigned x v).message = some (x.shown, v.text) := by
  have hlist : (Event.assigned x v).message.toList =
      "assign ".toList ++ (x.shown.toList ++ [' ', '='] ++ ' ' :: v.text.toList) := by
    have hsign : " = ".toList = [' ', '='] ++ [' '] := by decide
    show ("assign " ++ x.shown ++ " = " ++ v.text).toList = _
    rw [String.toList_append, String.toList_append, String.toList_append, hsign]
    simp only [List.append_assoc, List.singleton_append]
  have htext : ∀ c ∈ v.text.toList.reverse, decide (c ≠ ' ') = true := by
    intro c hc
    refine decide_eq_true ?_
    rintro rfl
    exact blank_not_mem_text v (List.mem_reverse.1 hc)
  have hhead : ∀ c ∈ (' ' :: (x.shown.toList ++ [' ', '=']).reverse).head?, decide (c ≠ ' ') = false := by
    intro c hc
    obtain rfl := Option.some.inj hc
    rfl
  have hback : (x.shown.toList ++ [' ', '='] ++ ' ' :: v.text.toList).reverse =
      v.text.toList.reverse ++ ' ' :: (x.shown.toList ++ [' ', '=']).reverse := by simp
  unfold assignment?
  rw [hlist, if_pos (List.isPrefixOf_iff_prefix.2 (List.prefix_append _ _)), List.drop_left' (by rfl)]
  simp only [List.rdropWhile, List.rtakeWhile, List.rdrop_eq_reverse_drop_reverse, hback,
    Strict.takeWhile_run htext hhead, Strict.dropWhile_run htext hhead]
  simp

theorem assignment?_of_head {message : String} {c : Char} {cs : List Char} (h : message.toList = c :: cs)
    (hc : c ≠ 'a') : assignment? message = none := by
  have hword : "assign ".toList = 'a' :: "ssign ".toList := by decide
  unfold assignment?
  rw [h, hword, if_neg]
  rw [List.isPrefixOf_iff_prefix, List.cons_prefix_cons]
  exact fun hp => hc hp.1.symm

/-- The messages about other events begin with other words. -/
theorem assignment?_eq_none {e : Event} (h : e.isAssigned = false) : assignment? e.message = none := by
  cases e with
  | assigned x v => cases h
  | program text => exact assignment?_of_head (String.toList_append ..) (by decide)
  | chosen v =>
    show assignment? ("if condition " ++ v.text ++ " -> " ++ _) = none
    rw [String.append_assoc, String.append_assoc]
    exact assignment?_of_head (String.toList_append ..) (by decide)
  | tested v => exact assignment?_of_head (String.toList_append ..) (by decide)
  | result v => exact assignment?_of_head (String.toList_append ..) (by decide)

/-! ## Names in writing -/

structure WrittenApart (names : List Json) : Prop where
  text : ∀ x ∈ names, x.isText = true ∨ x = .null
  none : .null ∈ names → .str "None" ∉ names

theorem WrittenApart.eq_of_shown {names : List Json} (h : WrittenApart names) {x y : Json} (hx : x ∈ names)
    (hy : y ∈ names) (hxy : x.shown = y.shown) : x = y := by
  have hnull : ∀ z ∈ names, z.isText = true → z.shown = Json.null.shown → .null ∉ names := by
    intro z hz htext hshown hnone
    cases z with
    | str s => exact h.none hnone ((show s = "None" from hshown) ▸ hz)
    | _ => cases htext
  rcases h.text x hx with htx | rfl
  · rcases h.text y hy with hty | rfl
    · cases x with
      | str s =>
        cases y with
        | str s' => exact congrArg Json.str hxy
        | _ => cases hty
      | _ => cases htx
    · exact absurd hy (hnull x hx htx hxy)
  · rcases h.text y hy with hty | rfl
    · exact absurd hx (hnull y hy hty hxy.symm)
    · rfl

/-! ## Replayed logs -/

theorem replay_append (xs ys : List String) (r : List (String × String)) :
    replay (xs ++ ys) r = replay ys (replay xs r) := List.foldl_append

namespace Leads

variable {level : Int} {names : List Json} {s t : State} {as : List Assignment}

theorem mem_store_names (h : Leads level names s as t) : ∀ x ∈ t.store.names, x ∈ names ++ s.store.names := by
  intro x hx
  rw [h.names_eq] at hx
  rcases List.mem_append.1 hx with hx | hx
  · exact List.mem_append_right _ hx
  · obtain ⟨a, ha, rfl⟩ := List.mem_map.1 (mem_firsts.1 hx).1
    exact List.mem_append_left _ (h.mem_names a ha)

/-- The messages told on the way, carried out on the store at its start as text, give the store at its end. -/
theorem replay_eq (h : Leads level names s as t) (hl : 2 ≤ level) (hn : WrittenApart (names ++ s.store.names)) :
    ∃ told, t.log = told ++ s.log ∧ told.reverse.filter Event.isAssigned = as.map (fun a => .assigned a.name a.value) ∧
      replay (told.reverse.map Event.message) s.store.rendering = t.store.rendering := by
  induction h with
  | refl => exact ⟨[], rfl, rfl, rfl⟩
  | @told as t h e he ih =>
    obtain ⟨told, hlog, hevents, hreplay⟩ := ih
    rw [State.store_told, State.log_told]
    split
    · refine ⟨e :: told, by rw [hlog]; rfl, ?_, ?_⟩
      · rw [List.reverse_cons, List.filter_append, hevents]
        simp [he]
      · rw [List.reverse_cons, List.map_append, replay_append, hreplay]
        simp [replay, assignment?_eq_none he]
    · exact ⟨told, hlog, hevents, hreplay⟩
  | @assigned as t h x hx v ih =>
    obtain ⟨told, hlog, hevents, hreplay⟩ := ih
    refine ⟨.assigned x v :: told, by rw [State.log_assigned hl, hlog]; rfl, ?_, ?_⟩
    · rw [List.reverse_cons, List.filter_append, hevents, List.map_append]
      rfl
    · have hput : put x.shown v.text t.store.rendering = (t.store.set x v).rendering :=
        put_rendering (fun y hy hxy => hn.eq_of_shown (h.mem_store_names y hy) (List.mem_append_left _ hx) hxy) v
      rw [List.reverse_cons, List.map_append, replay_append, hreplay, State.store_assigned, ← hput]
      simp [replay, assignment?_message]

/-- Right behind each message about an assignment there is the state that was noted with it. -/
theorem exists_point (h : Leads level names s as t) (hl : 2 ≤ level) {later earlier : List Event} {x : Json} {v : Value}
    (hlog : t.log = later ++ .assigned x v :: (earlier ++ s.log)) :
    ∃ a ∈ as, a.name = x ∧ a.value = v ∧ a.after.log = .assigned x v :: (earlier ++ s.log) := by
  induction h generalizing later with
  | refl =>
    have hlength := congrArg List.length hlog
    simp only [List.length_append, List.length_cons] at hlength
    omega
  | told _ e he ih =>
    rw [State.log_told] at hlog
    split at hlog
    · cases later with
      | nil =>
        obtain ⟨rfl, -⟩ := List.cons.inj hlog
        cases he
      | cons y later => exact ih (List.cons.inj hlog).2
    · exact ih hlog
  | @assigned as t _ y hy w ih =>
    rw [State.log_assigned hl] at hlog
    cases later with
    | nil =>
      obtain ⟨hevent, htail⟩ := List.cons.inj hlog
      obtain ⟨rfl, rfl⟩ := Event.assigned.inj hevent
      exact ⟨_, List.mem_append_right _ (List.mem_singleton.2 rfl), rfl, rfl, by rw [State.log_assigned hl, htail]⟩
    | cons z later =>
      obtain ⟨a, ha, hpoint⟩ := ih (List.cons.inj hlog).2
      exact ⟨a, List.mem_append_left _ ha, hpoint⟩

end Leads

/-! ## Identifiers -/

namespace Node

def idents (n : Node) : List Json := (n.nodes true).filterMap name?

/-- A target is an identifier or stands for the missing name. -/
theorem mem_targets (n : Node) : ∀ x ∈ n.targets, x ∈ n.idents ∨ x = .null := by
  intro x hx
  obtain ⟨m, hm, htarget⟩ := List.mem_filterMap.1 hx
  cases m with
  | assign t name value =>
    have hname := mem_nodes_of_part n _ (nodes_mono n _ hm) name List.mem_cons_self
    have htarget : name.named? = some x := htarget
    unfold named? at htarget
    split at htarget
    · exact .inl (List.mem_filterMap.2 ⟨_, hname, htarget⟩)
    · exact .inr (Option.some.inj htarget).symm
    · cases htarget
  | _ => cases htarget

end Node

/-! ## Runs -/

/-- From level 2 on the messages about assignments are a log of the store, for every tree whose identifiers have texts
as names, unless it sets the missing name and the text `None` is a name too: those are written alike. Carrying the
messages of a run out on the store as text gives the store at its end as text, and carrying out those up to any message
about an assignment gives the store right behind it. There is one such message for each assignment. -/
theorem log_replays {level : Int} {n : Node} {s t : State} {o : Except Fault Value} (hl : 2 ≤ level)
    (hn : ∀ x ∈ n.idents, x.isText = true) (hs : ∀ x ∈ s.store.names, x.isText = true)
    (hnone : .null ∈ n.targets → .str "None" ∉ n.targets ++ s.store.names) (h : Ends level n s o t) :
    ∃ as told, Makes level n s as o t ∧ t.log = told ++ s.log ∧
      told.reverse.filter Event.isAssigned = as.map (fun a => .assigned a.name a.value) ∧
      replay (told.reverse.map Event.message) s.store.rendering = t.store.rendering ∧
      Store.line (replay (told.reverse.map Event.message) s.store.rendering) = t.store.listed ∧
      ∀ later x v earlier, told = later ++ .assigned x v :: earlier →
        ∃ a ∈ as, a.name = x ∧ a.value = v ∧ a.after.log = .assigned x v :: (earlier ++ s.log) ∧
          replay ((.assigned x v :: earlier).reverse.map Event.message) s.store.rendering =
            a.after.store.rendering := by
  have hapart : WrittenApart (n.targets ++ s.store.names) := by
    refine ⟨List.forall_mem_append.2 ⟨fun x hx => ?_, fun x hx => .inl (hs x hx)⟩, fun hnull => ?_⟩
    · exact (n.mem_targets x hx).imp_left (hn x)
    · rcases List.mem_append.1 hnull with hnull | hnull
      · exact hnone hnull
      · cases hs _ hnull
  obtain ⟨as, has⟩ := ends_iff_makes.1 h
  obtain ⟨told, hlog, hevents, hreplay⟩ := has.leads.replay_eq hl hapart
  refine ⟨as, told, has, hlog, hevents, hreplay, by rw [hreplay, Store.listed_eq_line], ?_⟩
  rintro later x v earlier rfl
  rw [List.append_assoc] at hlog
  obtain ⟨a, ha, hname, hvalue, hafter⟩ := has.leads.exists_point hl hlog
  obtain ⟨before, behind, -, hto, -⟩ := has.leads.split ha
  obtain ⟨told, htold, -, hpoint⟩ := hto.replay_eq hl hapart
  have hsame : told ++ s.log = .assigned x v :: earlier ++ s.log := htold.symm.trans hafter
  obtain rfl := List.append_cancel_right hsame
  exact ⟨a, ha, hname, hvalue, hafter, hpoint⟩

/-- The missing name set by an assignment without a target in the place of one, and a printed value in a name. -/
def missingTarget : Node :=
  let token : Token := Lexeme.eof.token
  let use (x : String) : Node := .ident token (.str x)
  .root [.assign token (.assign token .missing .missing) (.int token 1),
    .assign token (use "a b") (.print token (use "y")),
    .cond token (use "x") (.block token [.assign token (use "x") (.int token 2)]) .missing]

/-- A name with a blank in it, as a tree from a file may have, is read back from its message too. -/
theorem log_replays_missingTarget :
    let s : State := { store := ⟨[(.str "x", .int 1)]⟩ }
    let t : State := ⟨⟨[(.str "x", .int 2), (.null, .int 1), (.str "a b", .printed .missing)]⟩,
      [.assigned (.str "x") (.int 2), .chosen (.int 1), .assigned (.str "a b") (.printed .missing),
        .assigned .null (.int 1)]⟩
    (∀ x ∈ missingTarget.idents, x.isText = true) ∧ (∀ x ∈ s.store.names, x.isText = true) ∧
    (.null ∈ missingTarget.targets → .str "None" ∉ missingTarget.targets ++ s.store.names) ∧
    Ends 3 missingTarget s (.ok .missing) t ∧ t.store.listed = "Environment(x=2, None=1, a b=nil)" ∧
    replay ["assign None = 1", "assign a b = nil", "if condition 1 -> true branch", "assign x = 2"] s.store.rendering =
      t.store.rendering ∧
    ∃ as a, Makes 3 missingTarget s as (.ok .missing) t ∧ a ∈ as ∧ a.name = .str "a b" ∧
      replay ["assign None = 1", "assign a b = nil"] s.store.rendering = a.after.store.rendering := by
  intro s t
  have hn : ∀ x ∈ missingTarget.idents, x.isText = true := by decide
  have hs : ∀ x ∈ s.store.names, x.isText = true := by decide
  have hnone : .null ∈ missingTarget.targets → .str "None" ∉ missingTarget.targets ++ s.store.names := by decide
  have hends : Ends 3 missingTarget s (.ok .missing) t := ⟨8, by cbv⟩
  obtain ⟨as, told, has, hlog, -, hreplay, -, hpoints⟩ := log_replays (by decide) hn hs hnone hends
  obtain rfl : t.log = told := hlog.trans (List.append_nil told)
  obtain ⟨a, ha, hname, -, -, hpoint⟩ :=
    hpoints [.assigned (.str "x") (.int 2), .chosen (.int 1)] (.str "a b") (.printed .missing)
      [.assigned .null (.int 1)] rfl
  have hmessages : t.log.reverse.map Event.message =
      ["assign None = 1", "assign a b = nil", "if condition 1 -> true branch", "assign x = 2"] := by decide +kernel
  have hearlier : ([.assigned (.str "a b") (.printed .missing), .assigned .null (.int 1)] : List Event).reverse.map
      Event.message = ["assign None = 1", "assign a b = nil"] := by decide +kernel
  rw [hmessages] at hreplay
  rw [hearlier] at hpoint
  exact ⟨hn, hs, hnone, hends, by decide +kernel, hreplay, as, a, has, ha, hname, hpoint⟩

/-- A tree that sets the missing name and the text `None`. -/
def missingAndNone : Node :=
  let token : Token := Lexeme.eof.token
  .root [.assign token (.assign token .missing .missing) (.int token 1),
    .assign token (.ident token (.str "None")) (.int token 2)]

/-- The missing name and the text `None` are two names of a store, but their messages do not tell them apart. -/
theorem missing_name_replays_as_text :
    let t : State := ⟨⟨[(.null, .int 1), (.str "None", .int 2)]⟩,
      [.assigned (.str "None") (.int 2), .assigned .null (.int 1)]⟩
    (∀ x ∈ missingAndNone.idents, x.isText = true) ∧ Ends 2 missingAndNone ⟨.empty, []⟩ (.ok .missing) t ∧
    replay (t.log.reverse.map Event.message) Store.empty.rendering ≠ t.store.rendering ∧
    Store.line (replay (t.log.reverse.map Event.message) Store.empty.rendering) = "Environment(None=2)" ∧
    t.store.listed = "Environment(None=1, None=2)" := by
  intro t
  exact ⟨by decide, ⟨8, by cbv⟩, by decide +kernel, by decide +kernel, by decide +kernel⟩

end LineLang
