import Mathlib.Data.List.Nodup
import Bindery.Proofs.Hierarchy.Definition
import Bindery.Proofs.Hierarchy.Order
import Bindery.Proofs.Hierarchy.Renaming

/-!
# What a declaration determines

Two hierarchies may hold the same class at different places: other classes were
defined before it, or the same ones in another order, and some attempts failed.
None of this shows in its linearization once that is written as names. It is
enough that the class is declared alike in both (`DeclaredAlike`), over bases
of the same names in the same order that are declared alike in turn.

The linearization of a class comes from the merge of rows, and the rows hold
places. No two classes of a hierarchy share a name, so its names are a renaming
of its places, and a merge commutes with that (`map_linearize?`): written as
names, the linearization is a merge of rows of names, in which no place is
left. By induction over the declaration these rows are the same in both
hierarchies.

The roots need not be compared. Classes that are declared alike go back to
classes without a base, and these are the roots, so the roots have one name.

A definition that has no linearization is refused for that in both hierarchies
or in neither, with one exception: a full table refuses it before the order of
the bases is looked at (`define_of_full`), and whether a table is full is no
matter of the declaration (`filled_diamond_not_inconsistent`).
-/

namespace Bindery.Hierarchy

variable {h h' : Hierarchy} {id : ClassId} {ids bases bases' : List ClassId}
variable {name : String} {names : List String}

/-! ## Lists of classes in names -/

/-- The classes have these names, in this order. -/
def Spelled (h : Hierarchy) (ids : List ClassId) (names : List String) : Prop :=
  ids.map h.name? = names.map some

instance (h : Hierarchy) (ids : List ClassId) (names : List String) :
    Decidable (h.Spelled ids names) :=
  inferInstanceAs (Decidable (ids.map h.name? = names.map some))

theorem spelled_cons_iff : h.Spelled (id :: ids) (name :: names) ↔
    h.name? id = some name ∧ h.Spelled ids names := by
  rw [Spelled, List.map_cons, List.map_cons, List.cons.injEq, Spelled]

theorem Spelled.eq_nil_iff (hs : h.Spelled ids names) : ids = [] ↔ names = [] := by
  rw [← List.map_eq_nil_iff (f := h.name?), hs, List.map_eq_nil_iff]

theorem Spelled.exists_cons (hs : h.Spelled ids (name :: names)) :
    ∃ id rest, ids = id :: rest ∧ h.name? id = some name ∧ h.Spelled rest names := by
  obtain ⟨id, rest, rfl⟩ :=
    List.exists_cons_of_ne_nil (mt hs.eq_nil_iff.mp (List.cons_ne_nil name names))
  exact ⟨id, rest, rfl, spelled_cons_iff.mp hs⟩

theorem exists_spelled (hreg : ∀ id ∈ ids, h.Registered id) : ∃ names, h.Spelled ids names := by
  induction ids with
  | nil => exact ⟨[], rfl⟩
  | cons id ids ih =>
      obtain ⟨hid, hids⟩ := List.forall_mem_cons.mp hreg
      obtain ⟨name, hname⟩ := exists_name? hid
      obtain ⟨names, hnames⟩ := ih hids
      exact ⟨name :: names, spelled_cons_iff.mpr ⟨hname, hnames⟩⟩

theorem Spelled.registered (hs : h.Spelled ids names) (hid : id ∈ ids) : h.Registered id := by
  have hmem : h.name? id ∈ names.map some := hs ▸ List.mem_map_of_mem hid
  obtain ⟨name, -, hname⟩ := List.mem_map.mp hmem
  exact registered_of_name?_eq_some hname.symm

/-- Names tell classes apart. -/
theorem Reachable.name?_injOn (hr : Reachable h) : Set.InjOn h.name? {id | h.Registered id} := by
  intro id hid id' _ heq
  obtain ⟨name, hname⟩ := exists_name? hid
  exact hr.name?_unique hname (heq ▸ hname)

theorem Spelled.nodup_iff (hr : Reachable h) (hs : h.Spelled ids names) :
    ids.Nodup ↔ names.Nodup := by
  rw [← List.nodup_map_iff (Option.some_injective String), ← hs]
  constructor
  · exact List.Nodup.map_on fun a ha b hb =>
      hr.name?_injOn (hs.registered ha) (hs.registered hb)
  · exact List.Nodup.of_map h.name?

/-! ## Linearizations in names -/

/-- Written as names, the ancestors of a class are the merge of the rows
written as names. -/
theorem map_linearize? (hr : Reachable h) (hreg : ∀ b ∈ bases, h.Registered b) :
    (h.linearize? bases).map (List.map h.name?) =
      C3.merge (bases.map (fun b => (h.mro b).map h.name?) ++ [bases.map h.name?]) := by
  have hrows : ∀ row ∈ bases.map h.mro ++ [bases], ∀ a ∈ row, h.Registered a := by
    rw [List.forall_mem_append, List.forall_mem_map, List.forall_mem_singleton]
    exact ⟨fun b _ a => ancestor_registered hr.wellFormed, hreg⟩
  have hinj : Set.InjOn h.name? {a | a ∈ (bases.map h.mro ++ [bases]).flatten} := by
    refine hr.name?_injOn.mono fun a ha => ?_
    obtain ⟨row, hrow, har⟩ := List.mem_flatten.mp ha
    exact hrows row hrow a har
  rw [linearize?, ← C3.merge_map hinj, List.map_append, List.map_map, List.map_singleton]
  rfl

/-- Classes of this name have linearizations that read the same. -/
def ReadAlike (h h' : Hierarchy) (name : String) : Prop :=
  ∀ id id', h.name? id = some name → h'.name? id' = some name →
    (h.mro id).map h.name? = (h'.mro id').map h'.name?

/-- The rows of one declaration read the same where the bases do. -/
theorem map_lines_eq (hs : h.Spelled bases names) (hs' : h'.Spelled bases' names)
    (hbases : ∀ base ∈ names, ReadAlike h h' base) :
    bases.map (fun b => (h.mro b).map h.name?) =
      bases'.map (fun b => (h'.mro b).map h'.name?) := by
  induction names generalizing bases bases' with
  | nil => rw [hs.eq_nil_iff.mpr rfl, hs'.eq_nil_iff.mpr rfl]; rfl
  | cons name names ih =>
      obtain ⟨b, rest, rfl, hb, hrest⟩ := hs.exists_cons
      obtain ⟨b', rest', rfl, hb', hrest'⟩ := hs'.exists_cons
      obtain ⟨hbase, hbases⟩ := List.forall_mem_cons.mp hbases
      rw [List.map_cons, List.map_cons, hbase b b' hb hb', ih hrest hrest' hbases]

theorem map_linearize?_eq (hr : Reachable h) (hr' : Reachable h') (hs : h.Spelled bases names)
    (hs' : h'.Spelled bases' names)
    (hbases : ∀ base ∈ names, ReadAlike h h' base) :
    (h.linearize? bases).map (List.map h.name?) =
      (h'.linearize? bases').map (List.map h'.name?) := by
  rw [map_linearize? hr fun b => hs.registered, map_linearize? hr' fun b => hs'.registered,
    map_lines_eq hs hs' hbases, hs, hs']

/-! ## Classes declared alike -/

/-- The class at this place has this name, and bases of these names. -/
def Declares (h : Hierarchy) (id : ClassId) (name : String) (names : List String) : Prop :=
  h.name? id = some name ∧ h.Spelled (h.bases id) names

instance (h : Hierarchy) (id : ClassId) (name : String) (names : List String) :
    Decidable (h.Declares id name names) :=
  inferInstanceAs (Decidable (_ ∧ _))

/-- A class of this name is declared in both hierarchies over bases of the same
names in the same order, and the classes of these names are declared alike in
turn. -/
inductive DeclaredAlike (h h' : Hierarchy) : String → Prop
  | intro {name : String} (id id' : ClassId) (names : List String)
      (hid : h.Declares id name names) (hid' : h'.Declares id' name names)
      (hbases : ∀ base ∈ names, DeclaredAlike h h' base) : DeclaredAlike h h' name

theorem DeclaredAlike.exists_name? (ha : DeclaredAlike h h' name) :
    ∃ id id', h.name? id = some name ∧ h'.name? id' = some name := by
  cases ha with
  | intro id id' _ hid hid' _ => exact ⟨id, id', hid.1, hid'.1⟩

theorem WellFormed.bases_eq_nil_iff (wf : h.WellFormed) (hid : h.Registered id) :
    h.bases id = [] ↔ id = .root := by
  constructor
  · intro hnil
    refine Decidable.of_not_not fun hroot => ?_
    obtain ⟨ancestors, hd⟩ := wf.derived id hid hroot
    exact hd.bases_ne_nil hnil
  · rintro rfl
    exact wf.root_bases

/-- **Linearizations of classes declared alike read the same.** -/
theorem DeclaredAlike.readAlike (hr : Reachable h) (hr' : Reachable h')
    (ha : DeclaredAlike h h' name) : ReadAlike h h' name := by
  have wf := hr.wellFormed
  have wf' := hr'.wellFormed
  induction ha with
  | @intro name id id' names hdecl hdecl' _ ih =>
      obtain ⟨hid, hbases⟩ := hdecl
      obtain ⟨hid', hbases'⟩ := hdecl'
      intro c c' hc hc'
      obtain rfl := hr.name?_unique hid hc
      obtain rfl := hr'.name?_unique hid' hc'
      have hreg := registered_of_name?_eq_some hid
      have hreg' := registered_of_name?_eq_some hid'
      have hroots : id = .root ↔ id' = .root := by
        rw [← wf.bases_eq_nil_iff hreg, ← wf'.bases_eq_nil_iff hreg', hbases.eq_nil_iff,
          hbases'.eq_nil_iff]
      by_cases hroot : id = .root
      · obtain rfl := hroots.mp hroot
        obtain rfl := hroot
        rw [wf.root_mro, wf'.root_mro, List.map_singleton, List.map_singleton, hid, hid']
      · obtain ⟨ancestors, hd⟩ := wf.derived id hreg hroot
        obtain ⟨ancestors', hd'⟩ := wf'.derived id' hreg' (mt hroots.mpr hroot)
        have hanc := map_linearize?_eq hr hr' hbases hbases' ih
        rw [hd.linearize, hd'.linearize] at hanc
        rw [hd.mro_eq, hd'.mro_eq, List.map_cons, List.map_cons, hid, hid',
          Option.some.inj hanc]

/-! ## Later definitions -/

section After

variable (hid : h.Registered id) (requests : List Request)

include hid

theorem name?_after_of_registered : (h.after requests).name? id = h.name? id := by
  rw [name?, name?, get?_after_of_registered hid]

theorem bases_after_of_registered : (h.after requests).bases id = h.bases id := by
  rw [Hierarchy.bases, Hierarchy.bases, get?_after_of_registered hid]

end After

theorem Spelled.after (hs : h.Spelled ids names) (requests : List Request) :
    (h.after requests).Spelled ids names := by
  have hmap : ids.map (h.after requests).name? = ids.map h.name? :=
    List.map_congr_left fun id hid => name?_after_of_registered (hs.registered hid) requests
  exact hmap.trans hs

theorem Declares.after (hd : h.Declares id name names) (requests : List Request) :
    (h.after requests).Declares id name names := by
  obtain ⟨hname, hbases⟩ := hd
  have hid := registered_of_name?_eq_some hname
  refine ⟨(name?_after_of_registered hid requests).trans hname, ?_⟩
  rw [bases_after_of_registered hid]
  exact hbases.after requests

/-- Definitions that are added later leave a class declared as it was. -/
theorem declaredAlike_after (hr : Reachable h) (hname : h.name? id = some name)
    (requests : List Request) : h.DeclaredAlike (h.after requests) name := by
  have wf := hr.wellFormed
  have hid := registered_of_name?_eq_some hname
  revert name
  refine wf.induction (motive := fun c => ∀ {name}, h.name? c = some name →
    h.DeclaredAlike (h.after requests) name) ?_ ?_ id hid
  · intro name hname
    have hroot : h.Declares .root name [] := ⟨hname, by rw [wf.root_bases]; rfl⟩
    exact .intro .root .root [] hroot (hroot.after requests) nofun
  · intro c ancestors hd ih name hname
    obtain ⟨names, hs⟩ := exists_spelled fun b hb => (ih b hb).1
    have hdecl : h.Declares c name names := ⟨hname, hs⟩
    refine .intro c c names hdecl (hdecl.after requests) fun base hbase => ?_
    have hmem : some base ∈ (h.bases c).map h.name? := hs ▸ List.mem_map_of_mem hbase
    obtain ⟨b, hb, hbname⟩ := List.mem_map.mp hmem
    exact (ih b hb).2 hbname

/-! ## A full table -/

/-- With room in the table, a new name without a base is defined. -/
theorem exists_define_nil (hr : Reachable h) (hfree : h.lookup? name = none)
    (hroom : h.size < capacity) :
    ∃ info, info.name = name ∧ (h.define name []).2 = h.register info := by
  have wf := hr.wellFormed
  have hbases : h.baseError? name [] (effectiveBases []) = none :=
    baseError?_eq_none_iff.mpr
      ⟨List.forall_mem_singleton.mpr ⟨wf.root_registered, List.not_mem_nil⟩, List.nodup_singleton _⟩
  have horder : h.Orderable (effectiveBases []) := by
    refine ⟨[.root], List.nodup_singleton _, List.Sublist.refl _, List.forall_mem_singleton.mpr ?_⟩
    rw [wf.root_mro]
  have hattempt := attempt_define h name []
  generalize h.define name [] = result at hattempt ⊢
  cases hattempt with
  | taken hname => exact absurd hfree hname
  | badBase _ hfault => cases hbases.symm.trans hfault
  | full _ _ hsize => exact absurd hroom (Nat.not_lt.mpr hsize)
  | inconsistent _ _ _ hmerge => exact absurd horder (linearize?_eq_none_iff.mp hmerge)
  | defined => exact ⟨_, rfl, rfl⟩

/-- Without room, what would be looked at last is not looked at. -/
theorem define_of_full (hfree : h.lookup? name = none)
    (hbases : h.baseError? name [] (effectiveBases bases) = none) (hfull : capacity ≤ h.size) :
    (h.define name bases).1 = .error (.overflow name) := by
  have hattempt := attempt_define h name bases
  generalize h.define name bases = result at hattempt ⊢
  cases hattempt with
  | taken hname => exact absurd hfree hname
  | badBase _ hfault => cases hbases.symm.trans hfault
  | full => rfl
  | inconsistent _ _ hsize _ | defined _ _ hsize _ => exact absurd hsize (Nat.not_lt.mpr hfull)

/-- A name of crosses, more of them for each number. -/
def crosses (n : Nat) : String := String.ofList (List.replicate (n + 1) 'x')

theorem crosses_injective : Function.Injective crosses := by
  intro m n heq
  have hlength := congrArg List.length (String.ofList_injective heq)
  rw [List.length_replicate, List.length_replicate] at hlength
  exact Nat.succ.inj hlength

theorem head?_toList_crosses (n : Nat) : (crosses n).toList.head? = some 'x' := by
  rw [crosses, String.toList_ofList]
  rfl

/-- Definitions of classes without a base. -/
def crowd (n : Nat) : List Request := (List.range n).map fun k => ⟨crosses k, []⟩

theorem crowd_succ (n : Nat) : crowd (n + 1) = crowd n ++ [⟨crosses n, []⟩] := by
  rw [crowd, List.range_succ, List.map_append, List.map_singleton, crowd]

theorem after_crowd (hr : Reachable h) (hfree : ∀ k, h.lookup? (crosses k) = none) {n : Nat}
    (hroom : h.size + n ≤ capacity) : (h.after (crowd n)).size = h.size + n ∧
      ∀ other, (∀ k < n, other ≠ crosses k) →
        (h.after (crowd n)).lookup? other = h.lookup? other := by
  induction n with
  | zero => exact ⟨rfl, fun _ _ => rfl⟩
  | succ n ih =>
      obtain ⟨hsize, hlookup⟩ := ih (by omega)
      have hnew : (h.after (crowd n)).lookup? (crosses n) = none := by
        rw [hlookup _ fun k hk heq => Nat.ne_of_gt hk (crosses_injective heq), hfree]
      obtain ⟨info, hname, hdefine⟩ := exists_define_nil (hr.after (crowd n)) hnew (by omega)
      have hafter : h.after (crowd (n + 1)) = (h.after (crowd n)).register info := by
        rw [crowd_succ, after_append]
        exact hdefine
      rw [hafter, size_register, hsize]
      refine ⟨rfl, fun other hother => ?_⟩
      rw [lookup?_register, hname, if_neg (hother n (Nat.lt_succ_self n))]
      exact hlookup other fun k hk => hother k (Nat.lt_succ_of_lt hk)

/-- Classes without a base until the table is full. -/
def filled (h : Hierarchy) : Hierarchy := h.after (crowd (capacity - h.size))

section Filled

variable (hr : Reachable h) (hfree : ∀ k, h.lookup? (crosses k) = none)
  (hroom : h.size ≤ capacity)

include hr hfree hroom

theorem size_filled : h.filled.size = capacity := by
  have hsum : h.size + (capacity - h.size) = capacity := Nat.add_sub_cancel' hroom
  exact (after_crowd hr hfree hsum.le).1.trans hsum

theorem lookup?_filled {other : String} (hother : ∀ k, other ≠ crosses k) :
    h.filled.lookup? other = h.lookup? other := by
  have hsum : h.size + (capacity - h.size) = capacity := Nat.add_sub_cancel' hroom
  exact (after_crowd hr hfree hsum.le).2 other fun k _ => hother k

end Filled

/-! ## Definitions over classes declared alike -/

/-- What a definition asks for before it gives up on the order of the bases. -/
theorem define_eq_inconsistent_iff :
    (h.define name bases).1 = .error (.inconsistent name) ↔
      h.lookup? name = none ∧ h.baseError? name [] (effectiveBases bases) = none
        ∧ h.size < capacity ∧ h.linearize? (effectiveBases bases) = none := by
  have hattempt := attempt_define h name bases
  generalize h.define name bases = result at hattempt ⊢
  cases hattempt with
  | taken hname => exact iff_of_false nofun fun hall => hname hall.1
  | badBase hname hbases =>
      refine iff_of_false (fun heq => ?_) fun hall => ?_
      · obtain ⟨i, base, -, hfault⟩ := exists_firstFault hbases
        rw [Except.error.inj heq] at hfault
        cases hfault
      · cases hbases.symm.trans hall.2.1
  | full hname hbases hsize =>
      exact iff_of_false nofun fun hall => absurd hall.2.2.1 (Nat.not_lt.mpr hsize)
  | inconsistent hname hbases hsize hmerge =>
      exact iff_of_true rfl ⟨hname, hbases, hsize, hmerge⟩
  | defined hname hbases hsize hmerge =>
      exact iff_of_false nofun fun hall => nomatch hmerge.symm.trans hall.2.2.2

theorem baseError?_eq_none_iff_nodup (hr : Reachable h) (hs : h.Spelled bases names) :
    h.baseError? name [] bases = none ↔ names.Nodup := by
  rw [baseError?_eq_none_iff, hs.nodup_iff hr]
  exact and_iff_right fun b hb => ⟨hs.registered hb, List.not_mem_nil⟩

/-- **A linearization is determined by the declaration.** Classes declared
alike in two hierarchies have linearizations of the same names; and a new name
over such bases has no linearization in one of them exactly when it has none in
the other, provided that both tables have room for a class or neither has. -/
theorem linearization_of_declaration (hr : Reachable h) (hr' : Reachable h') :
    (∀ name, DeclaredAlike h h' name →
      ∃ id id' line, h.lookup? name = some id ∧ h'.lookup? name = some id'
        ∧ h.Spelled (h.mro id) line ∧ h'.Spelled (h'.mro id') line)
    ∧ ∀ name bases bases' names, h.lookup? name = none → h'.lookup? name = none →
        h.Spelled (effectiveBases bases) names → h'.Spelled (effectiveBases bases') names →
        (∀ base ∈ names, DeclaredAlike h h' base) → (h.size < capacity ↔ h'.size < capacity) →
        ((h.define name bases).1 = .error (.inconsistent name) ↔
          (h'.define name bases').1 = .error (.inconsistent name)) := by
  constructor
  · intro name ha
    obtain ⟨id, id', hid, hid'⟩ := ha.exists_name?
    have hspelled : ∃ line, h.Spelled (h.mro id) line :=
      exists_spelled fun a => ancestor_registered hr.wellFormed
    obtain ⟨line, hline⟩ := hspelled
    refine ⟨id, id', line, hr.lookup?_eq_some_iff.mpr hid, hr'.lookup?_eq_some_iff.mpr hid',
      hline, ?_⟩
    rw [Spelled, ← ha.readAlike hr hr' id id' hid hid', hline]
  · intro name bases bases' names hfree hfree' hs hs' halike hroom
    have hlines := map_linearize?_eq hr hr' hs hs' fun base hbase =>
      (halike base hbase).readAlike hr hr'
    have hnone : h.linearize? (effectiveBases bases) = none ↔
        h'.linearize? (effectiveBases bases') = none := by
      rw [← Option.map_eq_none_iff (f := List.map h.name?), hlines, Option.map_eq_none_iff]
    rw [define_eq_inconsistent_iff, define_eq_inconsistent_iff,
      baseError?_eq_none_iff_nodup hr hs, baseError?_eq_none_iff_nodup hr' hs', hnone, hroom,
      hfree, hfree']

/-- The classes of the diamond with others among them, at other places. -/
def scattered : Hierarchy :=
  (ofRoot "Root").after
    [⟨"X", []⟩, ⟨"A", []⟩, ⟨"C", [⟨2⟩]⟩, ⟨"A", [⟨1⟩]⟩, ⟨"B", [⟨2⟩]⟩, ⟨"D", [⟨4⟩, ⟨3⟩]⟩]

/-- The last class of the diamond reads the same in both, and so does the
refusal to list a class in front of one that derives from it. -/
theorem linearization_of_scattered_diamond :
    Reachable diamond ∧ Reachable scattered ∧ diamond.DeclaredAlike scattered "D"
    ∧ (∃ id id' line, diamond.lookup? "D" = some id ∧ scattered.lookup? "D" = some id'
      ∧ diamond.Spelled (diamond.mro id) line ∧ scattered.Spelled (scattered.mro id') line)
    ∧ (diamond.define "E" [⟨1⟩, ⟨2⟩]).1 = .error (.inconsistent "E")
    ∧ (scattered.define "E" [⟨2⟩, ⟨4⟩]).1 = .error (.inconsistent "E") := by
  have hscattered : Reachable scattered := (Reachable.ofRoot "Root").after _
  have hroot : diamond.DeclaredAlike scattered "Root" :=
    .intro ⟨0⟩ ⟨0⟩ [] (by decide +kernel) (by decide +kernel) nofun
  have ha : diamond.DeclaredAlike scattered "A" :=
    .intro ⟨1⟩ ⟨2⟩ ["Root"] (by decide +kernel) (by decide +kernel) (by simpa using hroot)
  have hb : diamond.DeclaredAlike scattered "B" :=
    .intro ⟨2⟩ ⟨4⟩ ["A"] (by decide +kernel) (by decide +kernel) (by simpa using ha)
  have hc : diamond.DeclaredAlike scattered "C" :=
    .intro ⟨3⟩ ⟨3⟩ ["A"] (by decide +kernel) (by decide +kernel) (by simpa using ha)
  have hd : diamond.DeclaredAlike scattered "D" :=
    .intro ⟨4⟩ ⟨5⟩ ["B", "C"] (by decide +kernel) (by decide +kernel) (by simpa using ⟨hb, hc⟩)
  have hrefused : (diamond.define "E" [⟨1⟩, ⟨2⟩]).1 = .error (.inconsistent "E") := by
    decide +kernel
  obtain ⟨hline, hsame⟩ := linearization_of_declaration reachable_diamond hscattered
  refine ⟨reachable_diamond, hscattered, hd, hline "D" hd, hrefused, ?_⟩
  refine (hsame "E" _ _ ["A", "B"] (by decide +kernel) (by decide +kernel) (by decide +kernel)
    (by decide +kernel) (by simpa using ⟨ha, hb⟩) ?_).mp hrefused
  exact iff_of_true (by decide +kernel) (by decide +kernel)

/-- The class that has no linearization in the diamond is not refused for that
once the table is full, though its bases are declared alike. -/
theorem filled_diamond_not_inconsistent :
    Reachable diamond ∧ Reachable diamond.filled
    ∧ diamond.name? .root = some "Root" ∧ diamond.filled.name? .root = some "Root"
    ∧ diamond.lookup? "E" = none ∧ diamond.filled.lookup? "E" = none
    ∧ diamond.Spelled (effectiveBases [⟨1⟩, ⟨2⟩]) ["A", "B"]
    ∧ diamond.filled.Spelled (effectiveBases [⟨1⟩, ⟨2⟩]) ["A", "B"]
    ∧ (∀ base ∈ ["A", "B"], diamond.DeclaredAlike diamond.filled base)
    ∧ (diamond.define "E" [⟨1⟩, ⟨2⟩]).1 = .error (.inconsistent "E")
    ∧ (diamond.filled.define "E" [⟨1⟩, ⟨2⟩]).1 = .error (.overflow "E") := by
  have hr := reachable_diamond
  have hfilled : Reachable diamond.filled := hr.after _
  have hsize : diamond.size = 5 := by decide +kernel
  have hnames : ∀ i < 5, ((diamond.name? ⟨i⟩).all (·.toList.head? != some 'x')) = true := by
    decide +kernel
  have hfree : ∀ k, diamond.lookup? (crosses k) = none := by
    intro k
    refine Decidable.of_not_not fun hsome => ?_
    obtain ⟨id, hname⟩ := hr.lookup?_ne_none_iff.mp hsome
    have hid : id.index < 5 := hsize ▸ registered_of_name?_eq_some hname
    have hhead := hnames id.index hid
    rw [hname, Option.all_some, head?_toList_crosses] at hhead
    cases hhead
  have hroom : diamond.size ≤ capacity := by decide +kernel
  have hother : ∀ k, "E" ≠ crosses k := by
    intro k heq
    have hhead := head?_toList_crosses k
    rw [← heq] at hhead
    revert hhead
    decide +kernel
  have hnew : diamond.filled.lookup? "E" = none :=
    (lookup?_filled hr hfree hroom hother).trans (by decide +kernel)
  have hroot : diamond.name? .root = some "Root" := by decide +kernel
  have hbases : diamond.Spelled (effectiveBases [⟨1⟩, ⟨2⟩]) ["A", "B"] := by decide +kernel
  have hbases' : diamond.filled.Spelled (effectiveBases [⟨1⟩, ⟨2⟩]) ["A", "B"] := hbases.after _
  have ha : diamond.name? ⟨1⟩ = some "A" := by decide +kernel
  have hb : diamond.name? ⟨2⟩ = some "B" := by decide +kernel
  refine ⟨hr, hfilled, hroot, ?_, by decide +kernel, hnew, hbases, hbases', ?_, by decide +kernel,
    ?_⟩
  · exact (name?_after_of_registered hr.wellFormed.root_registered _).trans hroot
  · exact List.forall_mem_cons.mpr
      ⟨declaredAlike_after hr ha _, List.forall_mem_singleton.mpr (declaredAlike_after hr hb _)⟩
  · have hnofault : diamond.filled.baseError? "E" [] (effectiveBases [⟨1⟩, ⟨2⟩]) = none :=
      (baseError?_eq_none_iff_nodup hfilled hbases').mpr (by decide)
    exact define_of_full hnew hnofault (size_filled hr hfree hroom).ge

end Bindery.Hierarchy
