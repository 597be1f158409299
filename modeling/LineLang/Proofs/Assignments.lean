import LineLang.Proofs.Evaluation
import LineLang.Proofs.Parts
import LineLang.Proofs.TraceLevels

/-!
# The assignments of a run

Evaluation changes a store by assignments only. To say in which order it makes them, and what the state is in between,
it is watched: the same evaluation, in a monad that notes each assignment as it is made.

* `Assignment` : a name, its new value, and the state right behind the assignment;
* `Watched`, `watch` : evaluation with such steps; `Makes level n s as o t` says that evaluating `n` from `s` makes the
  assignments `as` and ends with `o` in `t`, and `ends_iff_makes` that it ends so watched or not;
* `Leads level names s as t` : the assignments `as`, to some of the given names, lead from `s` to `t` with nothing but
  events told between them;
* `Node.targets`, `Makes.leads` : so do the assignments of a run, to targets of its tree;
* `Leads.names_eq`, `Leads.get?_eq` : what that does to the names of a store and to their values;
* `ends_frame` : the store at the end of a run.
-/

namespace LineLang

open Eval

structure Assignment where
  name : Json
  value : Value
  after : State

/-! ## The watched evaluator -/

/-- A computation of the evaluator together with the assignments that it makes, the first one first. -/
def Watched (α : Type) := State → Option (Except Fault α × State × List Assignment)

namespace Watched

variable {α β : Type}

def quiet (m : Eval α) : Watched α := fun s => (m.run.run s).map fun r => (r.1, r.2, [])

/-- Sets a name, tells of it, and notes that. -/
def assign (level : Int) (name : Json) (value : Value) : Watched Unit := fun s =>
  ((Eval.assign level name value).run.run s).map fun r => (r.1, r.2, [⟨name, value, r.2⟩])

/-- One computation after the other, unless the first one stops with a fault. -/
def andThen (w : Watched α) (f : α → Watched β) : Watched β := fun s =>
  match w s with
  | none => none
  | some (.error e, t, as) => some (.error e, t, as)
  | some (.ok a, t, as) => (f a t).map fun r => (r.1, r.2.1, as ++ r.2.2)

instance : Monad Watched where
  pure a := quiet (pure a)
  bind := andThen

/-- The steps of evaluation, of which only assignments are noted. -/
def steps (level : Int) : Steps Watched where
  unfinished := quiet unfinished
  tell e := quiet (tell level e)
  target n := quiet (target n)
  assign := assign level
  lookup name := quiet (lookup name)

end Watched

def watch (level : Int) : (fuel : Nat) → Node → Watched Value := (Watched.steps level).eval

def Makes (level : Int) (n : Node) (s : State) (as : List Assignment) (o : Except Fault Value) (t : State) : Prop :=
  ∃ fuel, watch level fuel n s = some (o, t, as)

/-! ## From state to state -/

namespace State

/-- The state with one event more, if the level asks for it. -/
def told (level : Int) (e : Event) (s : State) : State :=
  if e.level ≤ level then { s with log := e :: s.log } else s

def assigned (level : Int) (x : Json) (v : Value) (s : State) : State :=
  told level (.assigned x v) { s with store := s.store.set x v }

@[simp] theorem store_told (level : Int) (e : Event) (s : State) : (s.told level e).store = s.store := by
  unfold told
  split <;> rfl

@[simp] theorem store_assigned (level : Int) (x : Json) (v : Value) (s : State) :
    (s.assigned level x v).store = s.store.set x v := store_told ..

theorem log_told (level : Int) (e : Event) (s : State) :
    (s.told level e).log = (if e.level ≤ level then [e] else []) ++ s.log := by
  unfold told
  split <;> rfl

theorem log_assigned {level : Int} (h : 2 ≤ level) (x : Json) (v : Value) (s : State) :
    (s.assigned level x v).log = .assigned x v :: s.log := by
  have hlevel : (Event.assigned x v).level ≤ level := h
  rw [assigned, log_told, if_pos hlevel]
  rfl

end State

/-- The assignments `as`, to some of the given names, lead from the state `s` to the state `t`; between them nothing
happens but that other events are told. -/
inductive Leads (level : Int) (names : List Json) (s : State) : List Assignment → State → Prop where
  | refl : Leads level names s [] s
  | told {as : List Assignment} {t : State} (h : Leads level names s as t) (e : Event)
      (he : e.isAssigned = false) : Leads level names s as (t.told level e)
  | assigned {as : List Assignment} {t : State} (h : Leads level names s as t) {x : Json} (hx : x ∈ names)
      (v : Value) : Leads level names s (as ++ [⟨x, v, t.assigned level x v⟩]) (t.assigned level x v)

namespace Leads

variable {level : Int} {names : List Json} {s t u : State} {as bs : List Assignment}

theorem trans (h : Leads level names s as t) (h' : Leads level names t bs u) : Leads level names s (as ++ bs) u := by
  induction h' with
  | refl => rwa [List.append_nil]
  | told _ e he ih => exact ih.told e he
  | assigned _ hx v ih =>
    rw [← List.append_assoc]
    exact ih.assigned hx v

/-- The way up to an assignment, and the way from there on. -/
theorem split {a : Assignment} (h : Leads level names s as t) (ha : a ∈ as) : ∃ before behind,
    as = before ++ a :: behind ∧ Leads level names s (before ++ [a]) a.after ∧
      Leads level names a.after behind t := by
  induction h with
  | refl => cases ha
  | told _ e he ih =>
    obtain ⟨before, behind, has, hto, hfrom⟩ := ih ha
    exact ⟨before, behind, has, hto, hfrom.told e he⟩
  | @assigned cs t h x hx v ih =>
    rcases List.mem_append.1 ha with ha | ha
    · obtain ⟨before, behind, rfl, hto, hfrom⟩ := ih ha
      exact ⟨before, behind ++ [_], by simp, hto, hfrom.assigned hx v⟩
    · obtain rfl := List.mem_singleton.1 ha
      exact ⟨cs, [], rfl, h.assigned hx v, .refl⟩

theorem mem_names (h : Leads level names s as t) : ∀ a ∈ as, a.name ∈ names := by
  induction h with
  | refl => exact fun a ha => absurd ha List.not_mem_nil
  | told _ _ _ ih => exact ih
  | assigned _ hx _ ih => exact List.forall_mem_append.2 ⟨ih, List.forall_mem_singleton.2 hx⟩

end Leads

/-! ## Watching changes nothing -/

/-- The watched computation `w` does what `m` does, and its assignments lead from state to state. -/
structure Watches (level : Int) (names : List Json) {α : Type} (w : Watched α) (m : Eval α) : Prop where
  same : ∀ s, (w s).map (fun r => (r.1, r.2.1)) = m.run.run s
  leads : ∀ {s o t as}, w s = some (o, t, as) → Leads level names s as t

namespace Watches

variable {level : Int} {names : List Json} {α β : Type}

theorem quiet {m : Eval α} (h : ∀ {s o t}, m.run.run s = some (o, t) → Leads level names s [] t) :
    Watches level names (.quiet m) m where
  same s := by
    unfold Watched.quiet
    rw [Option.map_map]
    exact Option.map_id' ..
  leads := by
    intro s o t as hrun
    obtain ⟨r, hr, heq⟩ := Option.map_eq_some_iff.1 hrun
    obtain ⟨rfl, rfl, rfl⟩ := heq
    exact h hr

theorem pure (a : α) : Watches level names (pure a) (pure a) := by
  refine quiet fun {s o t} hrun => ?_
  obtain ⟨-, rfl⟩ := Prod.mk.inj (Option.some.inj hrun)
  exact .refl

theorem unfinished : Watches level names (.quiet (unfinished : Eval α)) unfinished := by
  refine quiet fun {s o t} hrun => ?_
  cases hrun

theorem tell (e : Event) (he : e.isAssigned = false) :
    Watches level names (.quiet (tell level e)) (tell level e) := by
  refine quiet fun {s o t} hrun => ?_
  obtain ⟨-, rfl⟩ := Prod.mk.inj (Option.some.inj hrun)
  exact Leads.refl.told e he

theorem lookup (name : Json) : Watches level names (.quiet (lookup name)) (lookup name) := by
  refine quiet fun {s o t} hrun => ?_
  have hsame : t = s := by
    cases name with
    | arr items => exact (Prod.mk.inj (Option.some.inj hrun)).2.symm
    | obj fields => exact (Prod.mk.inj (Option.some.inj hrun)).2.symm
    | _ => exact (Prod.mk.inj (Option.some.inj hrun)).2.symm
  rw [hsame]
  exact .refl

theorem assign {x : Json} (hx : x ∈ names) (v : Value) :
    Watches level names (.assign level x v) (assign level x v) where
  same s := rfl
  leads := by
    intro s o t as hrun
    obtain ⟨-, hrun⟩ := Prod.mk.inj (Option.some.inj hrun)
    obtain ⟨rfl, rfl⟩ := Prod.mk.inj hrun
    exact Leads.refl.assigned hx v

/-- One computation after the other, where the second need only be watched from what the first can return. -/
theorem bind_returned {w : Watched α} {m : Eval α} {f : α → Watched β} {g : α → Eval β} (hm : Watches level names w m)
    (hf : ∀ {a s t}, m.run.run s = some (.ok a, t) → Watches level names (f a) (g a)) :
    Watches level names (w >>= f) (m >>= g) where
  same s := by
    show (w.andThen f s).map _ = _
    rw [run_bind]
    have hs := hm.same s
    unfold Watched.andThen
    cases h : w s with
    | none =>
      rw [h] at hs
      rw [← hs]
      rfl
    | some r =>
      obtain ⟨o, t, as⟩ := r
      rw [h] at hs
      rw [← hs]
      cases o with
      | error e => rfl
      | ok a =>
        show ((f a t).map _).map _ = (g a).run.run t
        rw [Option.map_map, ← (hf hs.symm).same t]
        rfl
  leads := by
    intro s o u cs hrun
    have hrun : w.andThen f s = some (o, u, cs) := hrun
    have hs := hm.same s
    unfold Watched.andThen at hrun
    cases h : w s with
    | none =>
      rw [h] at hrun
      cases hrun
    | some r =>
      obtain ⟨o', t, as⟩ := r
      rw [h] at hrun hs
      cases o' with
      | error e =>
        obtain ⟨-, hrun⟩ := Prod.mk.inj (Option.some.inj hrun)
        obtain ⟨rfl, rfl⟩ := Prod.mk.inj hrun
        exact hm.leads h
      | ok a =>
        obtain ⟨⟨o', u', bs⟩, hr, heq⟩ := Option.map_eq_some_iff.1 hrun
        obtain ⟨rfl, rfl, rfl⟩ := heq
        exact (hm.leads h).trans ((hf hs.symm).leads hr)

theorem bind {w : Watched α} {m : Eval α} {f : α → Watched β} {g : α → Eval β} (hm : Watches level names w m)
    (hf : ∀ a, Watches level names (f a) (g a)) : Watches level names (w >>= f) (m >>= g) :=
  bind_returned hm fun _ => hf _

theorem ite {p : Prop} [Decidable p] {w w' : Watched α} {m m' : Eval α} (h : Watches level names w m)
    (h' : Watches level names w' m') : Watches level names (if p then w else w') (if p then m else m') := by
  split
  · exact h
  · exact h'

theorem program {run : Node → Watched Value} {run' : Node → Eval Value} {ns : List Node}
    (h : ∀ n ∈ ns, Watches level names (run n) (run' n)) (last : Value) :
    Watches level names (program run last ns) (program run' last ns) := by
  induction ns generalizing last with
  | nil => exact pure last
  | cons n ns ih =>
    obtain ⟨hn, hns⟩ := List.forall_mem_cons.1 h
    exact bind hn fun v => ih hns _

theorem block {run : Node → Watched Value} {run' : Node → Eval Value} {ns : List Node}
    (h : ∀ n ∈ ns, Watches level names (run n) (run' n)) : Watches level names (block run ns) (block run' ns) := by
  induction ns with
  | nil => exact pure Value.missing
  | cons n ns ih =>
    obtain ⟨hn, hns⟩ := List.forall_mem_cons.1 h
    exact bind hn fun v => ite (ih hns) (pure v)

end Watches

/-! ## Targets -/

namespace Node

/-- The name that a node stands for in the place of a target. An assignment without a target stands for the missing
name. -/
def named? : Node → Option Json
  | .ident _ name => some name
  | .assign _ .missing _ => some .null
  | _ => none

def target? : Node → Option Json
  | .assign _ name _ => name.named?
  | _ => none

def targets (n : Node) : List Json := (n.nodes false).filterMap target?

end Node

/-! ## Runs -/

theorem target_returned {name : Node} {s t : State} {o : Except Fault Json}
    (h : (target name).run.run s = some (o, t)) : t = s ∧ ∀ key, o = .ok key → name.named? = some key := by
  have hkey : ∀ {x : Json}, (keyOf x).run.run s = some (o, t) → t = s ∧ ∀ key, o = .ok key → some x = some key := by
    intro x h
    cases x with
    | arr items =>
      obtain ⟨rfl, rfl⟩ := Prod.mk.inj (Option.some.inj h)
      exact ⟨rfl, by rintro key ⟨⟩⟩
    | obj fields =>
      obtain ⟨rfl, rfl⟩ := Prod.mk.inj (Option.some.inj h)
      exact ⟨rfl, by rintro key ⟨⟩⟩
    | _ =>
      obtain ⟨rfl, rfl⟩ := Prod.mk.inj (Option.some.inj h)
      exact ⟨rfl, fun key hk => congrArg some (Except.ok.inj hk)⟩
  unfold target at h
  split at h
  · exact hkey h
  · obtain ⟨rfl, rfl⟩ := Prod.mk.inj (Option.some.inj h)
    exact ⟨rfl, fun key hk => congrArg some (Except.ok.inj hk)⟩
  · obtain ⟨rfl, rfl⟩ := Prod.mk.inj (Option.some.inj h)
    exact ⟨rfl, by rintro key ⟨⟩⟩
  · obtain ⟨rfl, rfl⟩ := Prod.mk.inj (Option.some.inj h)
    exact ⟨rfl, by rintro key ⟨⟩⟩

theorem watch_watches {level : Int} {names : List Json} (fuel : Nat) : ∀ n : Node, (∀ x ∈ n.targets, x ∈ names) →
    Watches level names (watch level fuel n) (eval level fuel n) := by
  have part : ∀ {n p : Node}, (∀ x ∈ n.targets, x ∈ names) → p ∈ n.children false → ∀ x ∈ p.targets, x ∈ names :=
    fun h hp x hx => h x (Node.filterMap_nodes_subset hp hx)
  induction fuel with
  | zero => exact fun n _ => .unfinished
  | succ fuel ih =>
    intro n hn
    have ihp : ∀ p ∈ n.children false, Watches level names (watch level fuel p) (eval level fuel p) :=
      fun p hp => ih p (part hn hp)
    cases n with
    | missing => exact .pure _
    | root ss =>
      rw [Node.children_root] at ihp
      exact .program ihp .missing
    | assign t name value =>
      refine .bind (ihp value List.mem_cons_self) fun v => ?_
      refine .bind_returned (.quiet fun h => ?_) fun {key s t} h => ?_
      · rw [(target_returned h).1]
        exact .refl
      · have hkey : key ∈ names :=
          hn key (List.mem_filterMap.2 ⟨_, Node.mem_nodes.2 (.inl rfl), (target_returned h).2 key rfl⟩)
        exact .bind (.assign hkey v) fun _ => .pure _
    | print t value => exact .bind (ihp value List.mem_cons_self) fun v => .pure _
    | expr t e => exact ihp e List.mem_cons_self
    | block t ss =>
      rw [Node.children_block] at ihp
      exact .block ihp
    | cond t c y no =>
      refine .bind (ihp c (by simp [Node.children, Node.parts])) fun v => .bind (.tell _ rfl) fun _ => ?_
      exact .ite (ihp y (by simp [Node.children, Node.parts])) (ihp no (by simp [Node.children, Node.parts]))
    | loop t c b =>
      refine .bind (ihp c (by simp [Node.children, Node.parts])) fun v => .bind (.tell _ rfl) fun _ => .ite ?_ (.pure _)
      exact .bind (ihp b (by simp [Node.children, Node.parts])) fun w => .ite (ih (.loop t c b) hn) (.pure w)
    | ident t name => exact .lookup name
    | int t value => exact .pure _
    | binary t l o r =>
      refine .bind (ihp l (by simp [Node.children, Node.parts])) fun a => ?_
      exact .bind (ihp r (by simp [Node.children, Node.parts])) fun b => .pure _
    | unary t o r => exact .pure _

section Ends

variable {level : Int} {n : Node} {s t : State} {o : Except Fault Value} {as : List Assignment}

/-- Evaluation ends in the same way, watched or not. -/
theorem ends_iff_makes : Ends level n s o t ↔ ∃ as, Makes level n s as o t := by
  have same : ∀ fuel, (watch level fuel n s).map (fun r => (r.1, r.2.1)) = (eval level fuel n).run.run s := by
    intro fuel
    have h : Watches level n.targets (watch level fuel n) (eval level fuel n) := watch_watches fuel n fun _ hx => hx
    exact h.same s
  constructor
  · rintro ⟨fuel, h⟩
    rw [← same fuel] at h
    obtain ⟨⟨_, _, as⟩, hr, heq⟩ := Option.map_eq_some_iff.1 h
    obtain ⟨rfl, rfl⟩ := heq
    exact ⟨as, fuel, hr⟩
  · rintro ⟨as, fuel, h⟩
    exact ⟨fuel, by rw [← same fuel, h]; rfl⟩

theorem Makes.leads (h : Makes level n s as o t) : Leads level n.targets s as t := by
  obtain ⟨fuel, h⟩ := h
  exact (watch_watches fuel n fun _ hx => hx).leads h

end Ends

/-! ## Names of the store -/

/-- The names that are not among the old ones, each where it comes first. -/
def firsts (old names : List Json) : List Json := (names.removeAll old).eraseDups

theorem mem_firsts {old names : List Json} {x : Json} : x ∈ firsts old names ↔ x ∈ names ∧ x ∉ old := by
  simp [firsts, List.removeAll]

theorem firsts_concat (old names : List Json) (x : Json) :
    firsts old (names ++ [x]) = if x ∈ old ++ firsts old names then firsts old names else firsts old names ++ [x] := by
  have hsplit : firsts old (names ++ [x]) =
      firsts old names ++ (([x].removeAll old).removeAll (names.removeAll old)).eraseDups := by
    unfold firsts
    rw [← List.eraseDups_append]
    simp only [List.removeAll, List.filter_append]
  rw [hsplit]
  by_cases hold : x ∈ old
  · simp [List.removeAll, hold]
  · by_cases hnames : x ∈ names
    · simp [List.removeAll, mem_firsts, hold, hnames]
    · simp [List.removeAll, mem_firsts, hold, hnames, List.eraseDups_cons]

theorem nodup_firsts (old names : List Json) : (firsts old names).Nodup := by
  induction names using List.reverseRecOn with
  | nil => exact List.nodup_nil
  | append_singleton names x ih =>
    rw [firsts_concat]
    split
    · exact ih
    · next hx =>
      rw [List.mem_append, not_or] at hx
      exact List.nodup_append.2 ⟨ih, List.nodup_singleton x, fun y hy z hz => by
        rw [List.mem_singleton.1 hz]
        rintro rfl
        exact hx.2 hy⟩

theorem Store.names_set (s : Store) (x : Json) (v : Value) :
    (s.set x v).names = if x ∈ s.names then s.names else s.names ++ [x] := by
  have key : ∀ entries : List (Json × Value), (setEntry x v entries).map Prod.fst =
      if x ∈ entries.map Prod.fst then entries.map Prod.fst else entries.map Prod.fst ++ [x] := by
    intro entries
    induction entries with
    | nil => rfl
    | cons e es ih =>
      unfold setEntry
      by_cases he : e.1 = x
      · simp [he]
      · have hne : x ≠ e.1 := fun h => he h.symm
        simp only [if_neg he, List.map_cons, ih, List.mem_cons, hne, false_or]
        split <;> rfl
  exact key s.entries

namespace Leads

variable {level : Int} {names : List Json} {s t : State} {as : List Assignment}

/-- The names that were there stay in their order; behind them stand the new ones, as they were first assigned. -/
theorem names_eq (h : Leads level names s as t) :
    t.store.names = s.store.names ++ firsts s.store.names (as.map Assignment.name) := by
  induction h with
  | refl => exact (List.append_nil _).symm
  | told _ e _ ih => rw [State.store_told, ih]
  | assigned _ hx v ih =>
    rw [State.store_assigned, Store.names_set, ih, List.map_append, List.map_singleton, firsts_concat]
    split
    · rfl
    · exact List.append_assoc ..

theorem get?_eq (h : Leads level names s as t) {x : Json} (hx : x ∉ names) : t.store.get? x = s.store.get? x := by
  induction h with
  | refl => rfl
  | told _ e _ ih => rw [State.store_told, ih]
  | @assigned as t _ y hy v ih =>
    have hne : x ≠ y := fun h => hx (h ▸ hy)
    rw [State.store_assigned, Store.get?_set_other _ hne, ih]

end Leads

/-- The store at the end of a run, whatever its outcome and its trace level. The names that were there stay in their
order. Behind them stand the new ones, each once, in the order in which the run assigned them first; they are targets of
assignments in the tree. A name that is no such target keeps its value, or stays unset. -/
theorem ends_frame {level : Int} {n : Node} {s t : State} {o : Except Fault Value} (h : Ends level n s o t) :
    (∃ as, Makes level n s as o t) ∧ ∀ as, Makes level n s as o t →
      let new := firsts s.store.names (as.map Assignment.name)
      t.store.names = s.store.names ++ new ∧ new.Nodup ∧ (∀ x ∈ new, x ∉ s.store.names ∧ x ∈ n.targets) ∧
      ∀ x ∉ n.targets, t.store.get? x = s.store.get? x := by
  refine ⟨ends_iff_makes.1 h, fun as has => ?_⟩
  have hleads := has.leads
  refine ⟨hleads.names_eq, nodup_firsts _ _, fun x hx => ?_, fun x hx => hleads.get?_eq hx⟩
  obtain ⟨hassigned, hold⟩ := mem_firsts.1 hx
  obtain ⟨a, ha, rfl⟩ := List.mem_map.1 hassigned
  exact ⟨hold, hleads.mem_names a ha⟩

/-- An assignment with two more in its value, a loop that is run through once, and a name that is set again. -/
def nestedAssignments : Node :=
  let token : Token := Lexeme.eof.token
  let use (x : String) : Node := .ident token (.str x)
  let number (n : Int) : Node := .int token n
  let set (x : String) (value : Node) : Node := .assign token (use x) value
  .root [set "a" (.cond token (number 1) (.block token [set "b" (number 2), set "z" (number 3)]) .missing),
    .loop token (.binary token (use "b") (.str "==") (number 2))
      (.block token [set "c" (use "b"), set "b" (number 0)]),
    set "a" (use "c")]

/-- The assignments of the value come before the one that they stand in, and setting `a` and `z` again moves neither. -/
theorem ends_frame_nestedAssignments :
    let s : State := { store := ⟨[(.str "z", .int 7), (.str "y", .int 8)]⟩ }
    let t : State := { store := ⟨[(.str "z", .int 3), (.str "y", .int 8), (.str "b", .int 0), (.str "a", .int 2),
      (.str "c", .int 2)]⟩ }
    Ends 0 nestedAssignments s (.ok .missing) t ∧
    ∃ as, Makes 0 nestedAssignments s as (.ok .missing) t ∧
      as.map Assignment.name = ["b", "z", "a", "c", "b", "a"].map Json.str ∧
      t.store.names = s.store.names ++ firsts s.store.names (["b", "z", "a", "c", "b", "a"].map Json.str) ∧
      firsts s.store.names (["b", "z", "a", "c", "b", "a"].map Json.str) = ["b", "a", "c"].map Json.str ∧
      t.store.get? (.str "y") = s.store.get? (.str "y") := by
  intro s t
  have hends : Ends 0 nestedAssignments s (.ok .missing) t := ⟨8, by cbv⟩
  have hwatch : (watch 0 8 nestedAssignments s).map (fun r => (r.1, r.2.1, r.2.2.map Assignment.name)) =
      some (.ok .missing, t, ["b", "z", "a", "c", "b", "a"].map Json.str) := by cbv
  obtain ⟨⟨_, _, as⟩, has, heq⟩ := Option.map_eq_some_iff.1 hwatch
  obtain ⟨rfl, heq⟩ := Prod.mk.inj heq
  obtain ⟨rfl, hnames⟩ := Prod.mk.inj heq
  have hmakes : Makes 0 nestedAssignments s as (.ok .missing) t := ⟨8, has⟩
  obtain ⟨heq, -, -, hframe⟩ := (ends_frame hends).2 as hmakes
  rw [hnames] at heq
  exact ⟨hends, as, hmakes, hnames, heq, by decide, hframe (.str "y") (by decide)⟩

end LineLang
