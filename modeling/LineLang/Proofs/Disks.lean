import LineLang.Job

/-!
# Disks that differ at some places

* `Path.Clean`, `Path.ofText_text` : a path whose parts are names is read back from its text;
* `Disk.read_eq`, `Disk.locate_eq` : what reading and opening a file ask of the disk, one thing after the other;
* `Disk.Keeps W d e` : the disks agree at all places outside `W`, and have the same folders;
* `Disk.Keeps.folderOf_cases` : a path leads to the same folder on both, or to none. Only the reason can differ,
  `Obstacle.Alike`: what is absent on one may be a file on the other;
* `Disk.Twin m d d'` : the disks agree but for the location `m`, where neither has a folder;
* `Disk.Twin.locate` : a path is opened at the same place on both, or fails on both;
* `Disk.locate_spec` : a file that was opened anew and written is read back, and nothing else has changed.
-/

namespace LineLang

/-! ## Paths -/

namespace Path

theorem not_mem_of_mem_splitOn {α : Type} [BEq α] [LawfulBEq α] {a : α} :
    ∀ {cs : List α}, ∀ s ∈ cs.splitOn a, a ∉ s
  | [], s, hs => by
    rw [List.splitOn_nil, List.mem_singleton] at hs
    rw [hs]
    exact List.not_mem_nil
  | c :: cs, s, hs => by
    rw [List.splitOn_cons_eq_if_modifyHead] at hs
    split at hs
    · rcases List.mem_cons.1 hs with rfl | hs
      · exact List.not_mem_nil
      · exact not_mem_of_mem_splitOn s hs
    · next hc =>
      obtain ⟨first, more, hsplit⟩ := List.exists_cons_of_ne_nil (List.splitOn_ne_nil a cs)
      have ih : ∀ s ∈ cs.splitOn a, a ∉ s := not_mem_of_mem_splitOn
      rw [hsplit] at hs ih
      rcases List.mem_cons.1 hs with rfl | hs
      · rw [List.mem_cons, not_or]
        exact ⟨fun h => hc (by simp [h]), ih first List.mem_cons_self⟩
      · exact ih s (List.mem_cons_of_mem first hs)

def Clean (p : Path) : Prop := ∀ s ∈ p.parts, isName s = true ∧ Octet.slash ∉ s

theorem clean_ofText (s : Octets) : (ofText s).Clean := by
  intro part hpart
  obtain ⟨hmem, hkept⟩ := List.mem_filter.1 hpart
  exact ⟨hkept, not_mem_of_mem_splitOn part hmem⟩

theorem ne_nil_of_isName {s : Octets} (h : isName s = true) : s ≠ [] := by
  rintro rfl
  exact absurd h (by decide)

theorem text_of_parts {p : Path} (hp : p.parts ≠ []) :
    p.text = p.start.text ++ [Octet.slash].intercalate p.parts := by
  unfold text
  split
  · next hparts => exact absurd hparts hp
  · rfl

/-- A name does not begin with a slash, nor does a row of names. -/
theorem head?_intercalate {parts : List Octets} (h : ∀ s ∈ parts, isName s = true ∧ Octet.slash ∉ s) :
    ([Octet.slash].intercalate parts).head? ≠ some Octet.slash := by
  cases parts with
  | nil => simp
  | cons s parts =>
    obtain ⟨hs, hslash⟩ := h s List.mem_cons_self
    obtain ⟨c, cs, rfl⟩ := List.exists_cons_of_ne_nil (ne_nil_of_isName hs)
    have hhead : ([Octet.slash].intercalate ((c :: cs) :: parts)).head? = some c := by
      cases parts <;> simp [List.intercalate]
    rw [hhead]
    rintro ⟨⟩
    exact hslash List.mem_cons_self

theorem segments_text {p : Path} (h : p.Clean) (hp : p.parts ≠ []) :
    segments p.text = List.replicate p.start.text.length [] ++ p.parts := by
  have hsplit := List.splitOn_intercalate Octet.slash (fun s hs => (h s hs).2) hp
  have hstep : ∀ s : Octets, (Octet.slash :: s).splitOn Octet.slash = [] :: s.splitOn Octet.slash := by
    intro s
    rw [List.splitOn_cons_eq_if_modifyHead, if_pos (beq_self_eq_true _)]
  rw [segments, text_of_parts hp]
  cases p.start <;> simp [Start.text, hstep, hsplit, List.replicate]

theorem filter_blanks (n : Nat) : (List.replicate n ([] : Octets)).filter isName = [] :=
  List.filter_eq_nil_iff.2 fun s hs => by
    rw [List.eq_of_mem_replicate hs]
    decide

theorem start_text {p : Path} (h : p.Clean) : Start.ofText p.text = p.start := by
  have hrow : ∀ s : Octets, s.head? ≠ some Octet.slash → s.takeWhile (· = Octet.slash) = [] := by
    intro s hs
    cases s with
    | nil => rfl
    | cons c cs => exact List.takeWhile_cons_of_neg (by simpa using hs)
  have htext : p.text = p.start.text ++ [Octet.slash].intercalate p.parts ∨ p.start = .here ∧ p.text = here := by
    unfold text
    split
    · next hstart _ => exact .inr ⟨hstart, rfl⟩
    · exact .inl rfl
  rcases htext with htext | ⟨hstart, htext⟩
  · rw [htext]
    unfold Start.ofText
    cases p.start <;> simp [Start.text, hrow _ (head?_intercalate h)]
  · rw [htext, hstart]
    decide

/-- A path is read back from its text. -/
theorem ofText_text {p : Path} (h : p.Clean) : ofText p.text = p := by
  obtain ⟨start, parts⟩ := p
  have hstart := start_text h
  rw [ofText, hstart]
  congr 1
  by_cases hp : parts = []
  · subst hp
    cases start <;> decide
  · rw [segments_text h hp, List.filter_append, filter_blanks, List.nil_append]
    exact List.filter_eq_self.2 fun s hs => (h s hs).1

theorem clean_withName {p : Path} (h : p.Clean) {name : Octets} (hn : isName name = true ∧ Octet.slash ∉ name) :
    (p.withName name).Clean := by
  intro s hs
  rcases List.mem_append.1 hs with hs | hs
  · exact h s ((List.dropLast_sublist p.parts).subset hs)
  · rw [List.mem_singleton.1 hs]
    exact hn

theorem clean_child {p : Path} (h : p.Clean) {name : Octets} (hn : isName name = true ∧ Octet.slash ∉ name) :
    (p.child name).Clean := by
  intro s hs
  rcases List.mem_append.1 hs with hs | hs
  · exact h s hs
  · rw [List.mem_singleton.1 hs]
    exact hn

end Path

/-! ## One thing after the other -/

namespace Disk

theorem part_text {p : Path} (h : p.Clean) {front : List Octets} {last : Octets} (hp : p.parts = front ++ [last]) :
    part p.text = ⟨p.start ≠ .here, front, last, false⟩ := by
  have hlast : last ≠ [] := Path.ne_nil_of_isName (h last (by simp [hp])).1
  have hrooted : p.text.head? = some Octet.slash ↔ p.start ≠ .here := by
    rw [Path.text_of_parts (by simp [hp])]
    cases p.start with
    | here => simpa [Start.text] using Path.head?_intercalate h
    | root => simp [Start.text]
    | doubleRoot => simp [Start.text]
  have hback : (Path.segments p.text).reverse =
      last :: (List.replicate p.start.text.length [] ++ front).reverse := by
    rw [Path.segments_text h (by simp [hp]), hp, ← List.append_assoc, List.reverse_append, List.reverse_singleton,
      List.singleton_append]
  have hdrop : ∀ names : List Octets, (last :: names).dropWhile (· = []) = last :: names :=
    fun _ => List.dropWhile_cons_of_neg (by simpa using hlast)
  have hfront : front.filter Path.isName = front :=
    List.filter_eq_self.2 fun s hs => (h s (by simp [hp, hs])).1
  simp only [part, hback, hdrop, List.reverse_reverse, List.filter_append, Path.filter_blanks, hfront,
    List.nil_append, hrooted, Nat.lt_irrefl, decide_false]

theorem at?_around (d : Disk) {l : Location} (h : isAround l = true) : d.at? l = some .folder := by
  rw [at?, if_pos h]

theorem not_around {d : Disk} {l : Location} (h : d.at? l ≠ some .folder) : isAround l = false :=
  Bool.eq_false_iff.2 fun ha => h (d.at?_around ha)

theorem isAround_dropLast {l : Location} (h : isAround l = true) : isAround l.dropLast = true :=
  List.all_eq_true.2 fun name hname => List.all_eq_true.1 h name ((List.dropLast_sublist l).subset hname)

/-- A name leads to a place of that name, unless it leads back to a folder around the working folder. -/
theorem down_of_not_around {d : Disk} {l : Location} {name : Octets} (h : isAround (d.down l name) = false) :
    d.down l name = l ++ [name] := by
  unfold down at h ⊢
  split at h
  · next hback =>
    rw [Bool.and_eq_true, Bool.and_eq_true] at hback
    rw [isAround_dropLast hback.1.1] at h
    cases h
  · next hback => rw [if_neg hback]

theorem at?_put_ne_folder (d : Disk) {l : Location} (h : isAround l = false) (bytes : List UInt8) :
    (d.put l (.file bytes)).at? l ≠ some .folder := by
  rw [d.at?_put_self h]
  exact fun heq => Entry.noConfusion (Option.some.inj heq)

theorem walk_up (d : Disk) {l : Location} {names : List Octets} : d.walk l (out :: names) = d.walk (d.up l) names := by
  rw [walk, if_pos rfl]

theorem walk_name (d : Disk) {l : Location} {name : Octets} {names : List Octets} (hu : name ≠ out) :
    d.walk l (name :: names) =
      if nameLimit < name.length then .error .tooLong
      else match d.at? (d.down l name) with
        | none => .error .absent
        | some (.file _) => .error .notFolder
        | some .folder => d.walk (d.down l name) names := by
  rw [walk, if_neg hu, find]
  by_cases hlen : nameLimit < name.length
  · rw [if_pos hlen, if_pos hlen]
  · rw [if_neg hlen, if_neg hlen]
    match d.at? (d.down l name) with
    | none => rfl
    | some (.file _) => rfl
    | some .folder => rfl

/-- Makes the file at a location ready for writing. -/
def ready (d : Disk) (mode : WriteMode) (l : Location) : Except Obstacle (Location × Disk) :=
  match d.at? l, mode with
  | some .folder, _ => .error .isFolder
  | some (.file _), .append => .ok (l, d)
  | _, _ => .ok (l, d.put l (.file []))

theorem locate_eq (d : Disk) (mode : WriteMode) (path : Octets) : d.locate mode path =
    match refusal? path with
    | some o => .error o
    | none =>
      if (part path).last = [] then .error (if path = [] then .absent else .isFolder)
      else match d.folderOf (part path) with
        | .error o => .error o
        | .ok l =>
          if isDots (part path).last || (part path).closed then .error .isFolder
          else if nameLimit < (part path).last.length then .error .tooLong
          else d.ready mode (d.down l (part path).last) := by
  unfold locate
  dsimp only
  cases refusal? path with
  | some o => rfl
  | none =>
    by_cases hlast : (part path).last = []
    · simp only [if_pos hlast]
    simp only [if_neg hlast]
    cases d.folderOf (part path) with
    | error o => rfl
    | ok l =>
      by_cases hdots : (isDots (part path).last || (part path).closed) = true
      · simp only [if_pos hdots]
        rfl
      simp only [if_neg hdots]
      by_cases hlen : nameLimit < (part path).last.length
      · simp only [find, if_pos hlen]
        rfl
      · simp only [find, if_neg hlen]
        rfl

theorem read_eq (d : Disk) (path : Octets) : d.read path =
    match refusal? path with
    | some o => .error o
    | none =>
      match d.folderOf (part path) with
      | .error o => .error o
      | .ok l =>
        if isDots (part path).last then .error .isFolder
        else if nameLimit < (part path).last.length then .error .tooLong
        else match d.at? (d.down l (part path).last) with
          | none => .error .absent
          | some .folder => .error .isFolder
          | some (.file bytes) => if (part path).closed then .error .notFolder else .ok bytes := by
  unfold read
  cases refusal? path with
  | some o => rfl
  | none =>
    dsimp only
    cases d.folderOf (part path) with
    | error o => rfl
    | ok l =>
      by_cases hdots : isDots (part path).last = true
      · simp only [bind, Except.bind, if_pos hdots]
        rfl
      by_cases hlen : nameLimit < (part path).last.length
      · simp only [bind, Except.bind, if_neg hdots, find, if_pos hlen]
      simp only [bind, Except.bind, if_neg hdots, find, if_neg hlen]
      cases d.at? (d.down l (part path).last) with
      | none => rfl
      | some entry => cases entry <;> rfl

/-- A path that is opened leads through folders to a place that can be made ready. -/
theorem locate_ok {d e : Disk} {mode : WriteMode} {path : Octets} {t : Location}
    (h : d.locate mode path = .ok (t, e)) : refusal? path = none ∧ isDots (part path).last = false ∧
      (part path).closed = false ∧ (part path).last.length ≤ nameLimit ∧
      ∃ l, d.folderOf (part path) = .ok l ∧ t = d.down l (part path).last ∧ d.ready mode t = .ok (t, e) := by
  have ready_place : ∀ {l}, d.ready mode l = .ok (t, e) → t = l := by
    intro l hready
    unfold ready at hready
    split at hready
    · cases hready
    · exact (Prod.mk.inj (Except.ok.inj hready)).1.symm
    · exact (Prod.mk.inj (Except.ok.inj hready)).1.symm
  rw [locate_eq] at h
  split at h
  · cases h
  next hr =>
  split at h
  · cases h
  split at h
  · cases h
  next l hw =>
  split at h
  · cases h
  next hdots =>
  split at h
  · cases h
  next hlen =>
  rw [Bool.or_eq_true, not_or, Bool.not_eq_true, Bool.not_eq_true] at hdots
  obtain rfl := ready_place h
  exact ⟨hr, hdots.1, hdots.2, Nat.not_lt.1 hlen, l, hw, rfl, h⟩

theorem read_file {d : Disk} {path : Octets} {l : Location} {bytes : List UInt8} (hr : refusal? path = none)
    (hw : d.folderOf (part path) = .ok l) (hd : isDots (part path).last = false)
    (hc : (part path).closed = false) (hlen : (part path).last.length ≤ nameLimit)
    (hfile : d.at? (d.down l (part path).last) = some (.file bytes)) : d.read path = .ok bytes := by
  have hlen := Nat.not_lt.2 hlen
  simp only [read_eq, hr, hw, hd, hc, Bool.false_eq_true, if_false, if_neg hlen, hfile]

/-- A path that is read leads to a file. -/
theorem read_ok {d : Disk} {path : Octets} {bytes : List UInt8} (h : d.read path = .ok bytes) :
    refusal? path = none ∧ isDots (part path).last = false ∧ (part path).closed = false ∧
      (part path).last.length ≤ nameLimit ∧
      ∃ l, d.folderOf (part path) = .ok l ∧ d.at? (d.down l (part path).last) = some (.file bytes) := by
  rw [read_eq] at h
  split at h
  · cases h
  next hr =>
  split at h
  · cases h
  next l hw =>
  split at h
  · cases h
  next hdots =>
  split at h
  · cases h
  next hlen =>
  split at h
  · cases h
  · cases h
  next found hfile =>
  split at h
  · cases h
  next hclosed =>
  obtain rfl : found = bytes := Except.ok.inj h
  exact ⟨hr, Bool.eq_false_iff.2 hdots, Bool.eq_false_iff.2 hclosed, Nat.not_lt.1 hlen, l, hw, hfile⟩

end Disk

/-! ## Disks that agree at most places -/

/-- The obstacles of a path whose front is no folder: nothing stands there, or a file. -/
def Obstacle.Blocked (o : Obstacle) : Prop := o = .absent ∨ o = .notFolder

/-- The same obstacle, or two that a path without a folder on its way can meet. -/
def Obstacle.Alike (o o' : Obstacle) : Prop := o = o' ∨ o.Blocked ∧ o'.Blocked

namespace Disk

/-- The disks agree outside `W`, and have the same folders. -/
structure Keeps (W : Location → Prop) (d e : Disk) : Prop where
  other : ∀ {l : Location}, ¬ W l → e.at? l = d.at? l
  folder : ∀ l : Location, e.at? l = some .folder ↔ d.at? l = some .folder
  around : e.around = d.around

namespace Keeps

variable {W W' : Location → Prop} {d e f : Disk}

theorem refl (W : Location → Prop) (d : Disk) : Keeps W d d := ⟨fun _ => rfl, fun _ => Iff.rfl, rfl⟩

theorem symm (h : Keeps W d e) : Keeps W e d :=
  ⟨fun hl => (h.other hl).symm, fun l => (h.folder l).symm, h.around.symm⟩

theorem trans (h : Keeps W d e) (h' : Keeps W' e f) : Keeps (fun l => W l ∨ W' l) d f :=
  ⟨fun hl => (h'.other fun hw => hl (.inr hw)).trans (h.other fun hw => hl (.inl hw)),
    fun l => (h'.folder l).trans (h.folder l), h'.around.trans h.around⟩

theorem mono (h : Keeps W d e) (hW : ∀ l, W l → W' l) : Keeps W' d e :=
  ⟨fun hl => h.other fun hw => hl (hW _ hw), h.folder, h.around⟩

theorem down (h : Keeps W d e) (l : Location) (name : Octets) : e.down l name = d.down l name := by
  rw [Disk.down, Disk.down, h.around]

/-- Where a folder stands on neither disk, names lead nowhere on both. Only the reason can differ. -/
theorem walk_blocked (h : Keeps W d e) {l : Location} {name : Octets} (names : List Octets) (hup : name ≠ out)
    (hd : d.at? (d.down l name) ≠ some .folder) : e.walk l (name :: names) = d.walk l (name :: names) ∨
      ∃ o o' : Obstacle, o.Blocked ∧ o'.Blocked ∧ d.walk l (name :: names) = .error o ∧
        e.walk l (name :: names) = .error o' := by
  have blocked : ∀ {e : Disk}, e.at? (e.down l name) ≠ some .folder → ∃ o : Obstacle, o.Blocked ∧
      (match e.at? (e.down l name) with
        | none => .error .absent
        | some (.file _) => .error .notFolder
        | some .folder => e.walk (e.down l name) names) = Except.error o := by
    intro e he
    match ha : e.at? (e.down l name) with
    | none => exact ⟨.absent, .inl rfl, rfl⟩
    | some (.file _) => exact ⟨.notFolder, .inr rfl, rfl⟩
    | some .folder => exact absurd ha he
  rw [walk_name d hup, walk_name e hup]
  split
  · exact .inl rfl
  obtain ⟨o, ho, hw⟩ := blocked hd
  obtain ⟨o', ho', hw'⟩ := blocked (e := e) fun he => hd ((h.folder _).1 (h.down l name ▸ he))
  exact .inr ⟨o, o', ho, ho', hw, hw'⟩

/-- Names lead to the same folder, or to none on both disks. -/
theorem walk_cases (h : Keeps W d e) (names : List Octets) (l : Location) :
    e.walk l names = d.walk l names ∨
      ∃ o o' : Obstacle, o.Blocked ∧ o'.Blocked ∧ d.walk l names = .error o ∧ e.walk l names = .error o' := by
  induction names generalizing l with
  | nil => exact .inl rfl
  | cons name names ih =>
    by_cases hup : name = out
    · rw [hup, walk_up, walk_up, show e.up l = d.up l by rw [up, up, h.around]]
      exact ih (d.up l)
    by_cases hf : d.at? (d.down l name) = some .folder
    · rw [walk_name e hup, walk_name d hup, h.down, (h.folder _).2 hf, hf]
      split
      · exact .inl rfl
      · exact ih (d.down l name)
    · exact h.walk_blocked names hup hf

theorem folderOf_cases (h : Keeps W d e) (p : Parted) : e.folderOf p = d.folderOf p ∨
    ∃ o o' : Obstacle, o.Blocked ∧ o'.Blocked ∧ d.folderOf p = .error o ∧ e.folderOf p = .error o' := by
  have htop : e.top = d.top := by rw [top, top, h.around]
  unfold folderOf
  rw [htop]
  exact h.walk_cases p.front _

theorem folderOf (h : Keeps W d e) (p : Parted) (l : Location) : e.folderOf p = .ok l ↔ d.folderOf p = .ok l := by
  rcases h.folderOf_cases p with hw | ⟨o, o', -, -, hd, he⟩
  · rw [hw]
  · rw [hd, he]
    exact iff_of_false (by rintro ⟨⟩) (by rintro ⟨⟩)

end Keeps

/-! ## One place apart -/

/-- The disks agree but for `m`, where neither has a folder. -/
structure Twin (m : Location) (d d' : Disk) : Prop where
  other : ∀ {l : Location}, l ≠ m → d'.at? l = d.at? l
  left : d.at? m ≠ some .folder
  right : d'.at? m ≠ some .folder
  around : d'.around = d.around

/-- What a file that is opened in the given mode still holds. -/
def kept (d : Disk) (mode : WriteMode) (l : Location) : List UInt8 :=
  match d.at? l, mode with
  | some (.file bytes), .append => bytes
  | _, _ => []

theorem kept_truncate (d : Disk) (l : Location) : d.kept .truncate l = [] := by
  unfold kept
  split
  · next h => cases h
  · rfl

theorem twin_put {d : Disk} {l : Location} (h : d.at? l ≠ some .folder) (bytes : List UInt8) :
    Twin l d (d.put l (.file bytes)) :=
  ⟨fun hk => at?_put_other _ hk _, h, at?_put_ne_folder _ (not_around h) _, rfl⟩

theorem ready_kept {d : Disk} (mode : WriteMode) {l : Location} (hl : d.at? l ≠ some .folder) :
    ∃ e, d.ready mode l = .ok (l, e) ∧ Twin l d e ∧ e.at? l = some (.file (d.kept mode l)) := by
  unfold ready kept
  split
  · next h => exact absurd h hl
  · next bytes h => exact ⟨d, rfl, ⟨fun _ => rfl, hl, hl, rfl⟩, by rw [h]⟩
  · next hmode =>
    refine ⟨_, rfl, twin_put hl [], ?_⟩
    split
    · next bytes h => exact absurd rfl (hmode bytes h)
    · exact at?_put_self _ (not_around hl) _

namespace Twin

variable {m : Location} {d d' : Disk}

theorem symm (h : Twin m d d') : Twin m d' d := ⟨fun hl => (h.other hl).symm, h.right, h.left, h.around.symm⟩

theorem trans {d'' : Disk} (h : Twin m d d') (h' : Twin m d' d'') : Twin m d d'' :=
  ⟨fun hl => (h'.other hl).trans (h.other hl), h.left, h'.right, h'.around.trans h.around⟩

theorem keeps (h : Twin m d d') : Keeps (· = m) d d' := by
  refine ⟨fun hl => h.other hl, fun l => ?_, h.around⟩
  by_cases hl : l = m
  · rw [hl]
    exact iff_of_false h.right h.left
  · rw [h.other hl]

/-- Files are put at the same location of both; away from `m` with the same content. -/
theorem put (h : Twin m d d') {l : Location} {bytes bytes' : List UInt8} (hb : l ≠ m → bytes = bytes') :
    Twin m (d.put l (.file bytes)) (d'.put l (.file bytes')) := by
  have keep : ∀ {d : Disk} {b : List UInt8}, d.at? m ≠ some .folder → (d.put l (.file b)).at? m ≠ some .folder := by
    intro d b hd
    by_cases hm : m = l
    · exact hm ▸ d.at?_put_ne_folder (not_around h.left) b
    · rwa [d.at?_put_other hm]
  refine ⟨fun {k} hk => ?_, keep h.left, keep h.right, h.around⟩
  by_cases hkl : k = l
  · subst hkl
    cases ha : isAround k with
    | true => rw [at?_around _ ha, at?_around _ ha]
    | false => rw [at?_put_self _ ha, at?_put_self _ ha, hb hk]
  · rw [at?_put_other _ hkl, at?_put_other _ hkl, h.other hk]

theorem append (h : Twin m d d') (l : Location) (text : String) : Twin m (d.append l text) (d'.append l text) := by
  have hput : ∀ d : Disk, ∃ bytes, d.append l text = d.put l (.file bytes) := by
    intro d
    unfold Disk.append
    split <;> exact ⟨_, rfl⟩
  by_cases hl : l = m
  · obtain ⟨bytes, hd⟩ := hput d
    obtain ⟨bytes', hd'⟩ := hput d'
    rw [hd, hd']
    exact h.put fun hne => absurd hl hne
  · unfold Disk.append
    rw [h.other hl]
    split <;> exact h.put fun _ => rfl

/-- How opening a path ends on the two disks. -/
inductive Opened (m : Location) : Except Obstacle (Location × Disk) → Except Obstacle (Location × Disk) → Prop where
  | both (l : Location) {e e' : Disk} (h : Twin m e e') : Opened m (.ok (l, e)) (.ok (l, e'))
  | refused {o o' : Obstacle} (h : o.Alike o') : Opened m (.error o) (.error o')

theorem ready (h : Twin m d d') (mode : WriteMode) (l : Location) :
    Opened m (d.ready mode l) (d'.ready mode l) := by
  by_cases hl : l = m
  · subst hl
    obtain ⟨e, he, htwin, -⟩ := ready_kept mode h.left
    obtain ⟨e', he', htwin', -⟩ := ready_kept mode h.right
    rw [he, he']
    exact .both l (htwin.symm.trans (h.trans htwin'))
  · unfold Disk.ready
    rw [h.other hl]
    split
    · exact .refused (.inl rfl)
    · exact .both l h
    · exact .both l (h.put fun _ => rfl)

/-- A path is opened at the same place of both disks, or refused on both. -/
theorem locate (h : Twin m d d') (mode : WriteMode) (path : Octets) :
    Opened m (d.locate mode path) (d'.locate mode path) := by
  rw [locate_eq, locate_eq]
  split
  · exact .refused (.inl rfl)
  split
  · exact .refused (.inl rfl)
  rcases h.keeps.folderOf_cases (part path) with hw | ⟨o, o', ho, ho', hw, hw'⟩
  · rw [hw]
    split
    · exact .refused (.inl rfl)
    split
    · exact .refused (.inl rfl)
    split
    · exact .refused (.inl rfl)
    · rw [h.keeps.down]
      exact h.ready mode _
  · rw [hw, hw']
    exact .refused (.inr ⟨ho, ho'⟩)

end Twin

/-- A text is written behind the end of a file. -/
theorem append_file {d : Disk} {l : Location} {bytes : List UInt8} (h : d.at? l = some (.file bytes))
    (text : String) : Twin l d (d.append l text) ∧
      (d.append l text).at? l = some (.file (bytes ++ Text.encode text)) := by
  have happend : d.append l text = d.put l (.file (bytes ++ Text.encode text)) := by
    rw [append, h]
  have hl : d.at? l ≠ some .folder := by simp [h]
  rw [happend]
  exact ⟨twin_put hl _, at?_put_self _ (not_around hl) _⟩

/-- A file that was opened holds what was kept of it, and what was then written. -/
theorem ready_append {d : Disk} (mode : WriteMode) {l : Location} (hl : d.at? l ≠ some .folder) :
    ∃ e, d.ready mode l = .ok (l, e) ∧ ∀ text, Twin l d (e.append l text) ∧
      (e.append l text).at? l = some (.file (d.kept mode l ++ Text.encode text)) := by
  obtain ⟨e, hready, htwin, hfile⟩ := ready_kept mode hl
  refine ⟨e, hready, fun text => ?_⟩
  obtain ⟨htwin', hfile'⟩ := append_file hfile text
  exact ⟨htwin.trans htwin', hfile'⟩

/-- A file that was opened anew and written is read back, and the disk has changed at its location only. -/
theorem locate_spec {d e : Disk} {path : Octets} {t : Location} (h : d.locate .truncate path = .ok (t, e))
    (text : String) : (∃ l, t = l ++ [(part path).last]) ∧ Twin t d (e.append t text) ∧
      (e.append t text).read path = .ok (Text.encode text) := by
  obtain ⟨hr, hd, hc, hlen, l, hw, rfl, h⟩ := locate_ok h
  have hfolder : d.at? (d.down l (part path).last) ≠ some .folder := by
    intro hf
    simp only [ready, hf] at h
    cases h
  obtain ⟨e', hready, hwritten⟩ := ready_append .truncate hfolder
  rw [hready] at h
  obtain ⟨-, rfl⟩ := Prod.mk.inj (Except.ok.inj h)
  obtain ⟨htwin, hfile⟩ := hwritten text
  rw [kept_truncate, List.nil_append] at hfile
  refine ⟨⟨l, down_of_not_around (not_around hfolder)⟩, htwin, ?_⟩
  refine read_file hr ((htwin.keeps.folderOf _ l).2 hw) hd hc hlen ?_
  rw [htwin.keeps.down, hfile]

end Disk

end LineLang
