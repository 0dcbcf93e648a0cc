import Mathlib.Data.List.Nodup
import Mathlib.Data.List.Flatten
import Mathlib.Tactic
import FsmLang.EventNumbers

set_option relaxedAutoImplicit false
set_option autoImplicit false

/-!
# Qualified names

The name of an enumerator of the event enumeration is made of the names of the machine's
ancestors, of the machine, and of the event or marker, joined by underscores. Identifiers may
contain underscores themselves, so that one text can be read as the name of several enumerators.

A text is read twice only where, among the names declared in one machine, one continues the name
of a sub-machine by an underscore and something that is found below that sub-machine.

## Main definitions

* `printAncestry`, `printNameWithAncestry`, `enumeratorName` — the names that are printed.
* `Machine.innerNames` — the names of the enumerators of a machine and all below it, without what
  precedes the machine's own part.
* `Machine.NamesApart` — the names declared in each machine are different, and none continues that
  of a sub-machine by a name found below it.

## Main results

* `map_enumeratorName_perm` — the texts in the enumeration are the inner names of the tree.
* `enumeratorNames_nodup_iff` — when the names are different.
-/

/-! ## Joined words -/

/-- Two ways to join a word to another by a separator give the same if the words are the same, or
if one of the first words goes on beyond the other and its separator. -/
private lemma List.append_cons_eq_append_cons_iff {α : Type*} (sep : α) (u v u' v' : List α) :
    u ++ sep :: v = u' ++ sep :: v' ↔
      (u = u' ∧ v = v') ∨ (∃ w, u' = u ++ sep :: w ∧ v = w ++ sep :: v') ∨
        ∃ w, u = u' ++ sep :: w ∧ v' = w ++ sep :: v := by
  constructor
  · intro h
    rcases List.append_eq_append_iff.mp h with ⟨w, hu, hv⟩ | ⟨w, hu, hv⟩
    · cases w with
      | nil => exact .inl ⟨by simpa using hu.symm, by simpa using hv⟩
      | cons a w =>
        obtain ⟨rfl, hw⟩ := List.cons.inj (hv : sep :: v = a :: (w ++ sep :: v'))
        exact .inr (.inl ⟨w, hu, hw⟩)
    · cases w with
      | nil => exact .inl ⟨by simpa using hu, by simpa using hv.symm⟩
      | cons a w =>
        obtain ⟨rfl, hw⟩ := List.cons.inj (hv : sep :: v' = a :: (w ++ sep :: v))
        exact .inr (.inr ⟨w, hu, hw⟩)
  · intro h
    rcases h with ⟨rfl, rfl⟩ | ⟨w, rfl, rfl⟩ | ⟨w, rfl, rfl⟩
    · rfl
    · simp
    · simp

namespace FsmLang

open CSemantics

/-- Two words joined by an underscore. -/
def joined (u v : String) : String := u ++ "_" ++ v

/-- Two words with an underscore between them. -/
lemma toList_joined (u v : String) : (joined u v).toList = u.toList ++ '_' :: v.toList := by
  simp [joined, String.toList_append]

/-- Two joined words are the same only if the words are, or if one of the first words goes on
beyond the other and an underscore. -/
lemma joined_eq_joined_iff (u v u' v' : String) :
    joined u v = joined u' v' ↔
      (u = u' ∧ v = v') ∨ (∃ w, u' = joined u w ∧ v = joined w v') ∨
        ∃ w, u = joined u' w ∧ v' = joined w v := by
  -- a word is the text of its characters
  have hword : ∀ {p : List Char → Prop}, (∃ w, p w) ↔ ∃ w : String, p w.toList := by
    intro p
    constructor
    · rintro ⟨w, hw⟩
      exact ⟨String.ofList w, by rwa [String.toList_ofList]⟩
    · rintro ⟨w, hw⟩
      exact ⟨w.toList, hw⟩
  simp only [← String.toList_inj, toList_joined, List.append_cons_eq_append_cons_iff]
  rw [hword, hword]

/-- What is joined to one word can be told from the result. -/
lemma joined_injective (u : String) : Function.Injective (joined u) := by
  intro v v' h
  have hlist := congrArg String.toList h
  rw [toList_joined, toList_joined, List.append_cancel_left_eq, List.cons.injEq] at hlist
  exact String.toList_inj.mp hlist.2

/-- No word is itself joined to another. -/
private lemma ne_joined (u v : String) : u ≠ joined u v := by
  intro h
  have hlen := congrArg (fun w => w.toList.length) h
  simp only [toList_joined, List.length_append, List.length_cons] at hlen
  omega

/-! ## What is printed -/

/-- The text that a label ends a name with. -/
def Machine.labelText (m : Machine) : Label → String
  | .event i => ((m.eventList[i]?).map (·.name)).getD ""
  | .firstEvent => "firstEvent"
  | .noEvent => "noEvent"
  | .lastEvent => "lastEvent"
  | .numEvents => "numEvents"
  | .numAllEvents => "numAllEvents"

/-- The names of the machines from the top-level machine to the machine at a path, joined by
underscores. -/
def printAncestry (m : Machine) : List ℕ → String
  | [] => m.info.name
  | k :: p => joined m.info.name (((m.machineList[k]?).map (printAncestry · p)).getD "")

/-- A name with the ancestry of the machine at a path before it. -/
def printNameWithAncestry (name : String) (top : Machine) (path : List ℕ) : String :=
  joined (printAncestry top path) name

/-- The text of an enumerator. -/
def enumeratorName (top : Machine) (x : Enumerator) : String :=
  printNameWithAncestry (((top.sub? x.path).map (·.labelText x.label)).getD "") top x.path

/-- The texts of the event enumeration, in the order in which they are printed. -/
def enumeratorNames (compactActionArray : Bool) (designated : String → ℤ) (top : Machine) :
    List String :=
  (commonHeaderStart compactActionArray designated top).map fun item => enumeratorName top item.name

/-- The ancestry of a sub-machine ends with its own name. -/
private lemma printAncestry_append {top : Machine} {path : List ℕ} {m c : Machine} {k : ℕ}
    (hm : top.sub? path = some m) (hc : m.machineList[k]? = some c) :
    printAncestry top (path ++ [k]) = joined (printAncestry top path) c.info.name := by
  induction path generalizing top with
  | nil =>
    obtain rfl := Option.some.inj hm
    simp [printAncestry, hc]
  | cons j path ih =>
    obtain ⟨d, hd, hdm⟩ := Option.bind_eq_some_iff.mp hm
    simp only [List.cons_append, printAncestry, hd, Option.map_some, Option.getD_some, ih hdm]
    simp [joined, String.append_assoc]

/-! ## Inner names -/

/-- What is printed for a machine besides its events. -/
def Machine.markerNames (atTop : Bool) (m : Machine) : List String :=
  "firstEvent" ::
    if atTop then
      (if m.actionsReturn = .events then ["noEvent"] else []) ++ ["numEvents", "numAllEvents"]
    else "noEvent" :: if m.machineList = [] then [] else ["lastEvent"]

/-- The names of a machine's events and of what is printed besides. -/
def Machine.localNames (atTop : Bool) (m : Machine) : List String :=
  m.eventList.map (·.name) ++ m.markerNames atTop

mutual

/-- The names of the enumerators of a machine and of all below it, from the machine's own part
on. -/
def Machine.innerNames (atTop : Bool) : Machine → List String
  | .mk info ms => (Machine.mk info ms).localNames atTop ++ innerNamesList ms

/-- The same for the machines of a list, with the machine's name in front. -/
def innerNamesList : List Machine → List String
  | [] => []
  | m :: ms => (m.innerNames false).map (joined m.info.name) ++ innerNamesList ms

end

/-- The names of a machine are its own and those of its sub-machines. -/
lemma Machine.innerNames_eq (atTop : Bool) (m : Machine) :
    m.innerNames atTop = m.localNames atTop ++ innerNamesList m.machineList := by
  cases m with
  | mk info ms => rw [innerNames, machineList_mk]

/-- The names of sub-machines are joined to their machines' names. -/
lemma innerNamesList_eq (ms : List Machine) :
    innerNamesList ms = ms.flatMap fun m => (m.innerNames false).map (joined m.info.name) := by
  induction ms with
  | nil => rfl
  | cons m ms ih => rw [innerNamesList, ih, List.flatMap_cons]

/-- The texts of a machine's events. -/
lemma map_labelText_eventNames (m : Machine) (path : List ℕ) :
    (eventNames path m.eventList.length).map (fun x => m.labelText x.label) =
      m.eventList.map (·.name) := by
  apply List.ext_getElem
  · simp [eventNames]
  · intro i h h'
    have hi : i < m.eventList.length := by simpa using h'
    simp [eventNames, Machine.labelText, hi]

/-- The text of an enumerator of the machine at a path. -/
lemma enumeratorName_mk {top m : Machine} {path : List ℕ} (hm : top.sub? path = some m)
    (l : Label) :
    enumeratorName top ⟨path, l⟩ = joined (printAncestry top path) (m.labelText l) := by
  simp [enumeratorName, printNameWithAncestry, hm]

/-- The texts of a machine's events in the enumeration. -/
lemma map_enumeratorName_eventNames {top m : Machine} {path : List ℕ}
    (hm : top.sub? path = some m) :
    (eventNames path m.eventList.length).map (enumeratorName top) =
      (m.eventList.map (·.name)).map (joined (printAncestry top path)) := by
  rw [← map_labelText_eventNames m path, List.map_map]
  apply List.map_congr_left
  intro x hx
  obtain ⟨i, -, rfl⟩ := List.mem_map.mp hx
  exact enumeratorName_mk hm _

/-- A sub-machine's events are printed after its `firstEvent`. -/
private lemma map_enumeratorName_printSubMachineEvent {top m : Machine} {path : List ℕ}
    (hm : top.sub? path = some m) (hev : m.eventList ≠ []) :
    ((List.range m.eventList.length).flatMap (printSubMachineEvent path)).map
        (fun item => enumeratorName top item.name) =
      joined (printAncestry top path) "firstEvent" ::
        (m.eventList.map (·.name)).map (joined (printAncestry top path)) := by
  rw [← map_enumeratorName_eventNames hm]
  obtain ⟨k, hk⟩ := Nat.exists_eq_succ_of_ne_zero (List.length_pos_of_ne_nil hev).ne'
  rw [hk, Nat.succ_eq_add_one, flatMap_printSubMachineEvent, eventNames_succ]
  simp only [List.map_cons, List.map_map, Function.comp_def, enumeratorName_mk hm]
  rfl

mutual

/-- The texts printed for a sub-machine and all below it are its inner names, after its
ancestry. -/
private lemma map_enumeratorName_printSubMachineEvents {top : Machine} (path : List ℕ) :
    ∀ m : Machine, m.Accepted → top.sub? path = some m →
      ((printSubMachineEvents path m).map fun item => enumeratorName top item.name).Perm
        ((m.innerNames false).map (joined (printAncestry top path)))
  | .mk info ms, hacc, hm => by
    obtain ⟨hev, -, hsubs⟩ := hacc
    have hlist := map_enumeratorName_printMachineListEvents path 0 ms hsubs hm rfl
    have hown := map_enumeratorName_printSubMachineEvent hm hev
    rw [Machine.eventList_mk] at hown
    have hlocal : ∀ l : List String, (Machine.mk info ms).localNames false ++ l =
        info.eventList.map (·.name) ++ "firstEvent" :: "noEvent" ::
          ((if ms = [] then [] else ["lastEvent"]) ++ l) := by
      intro l
      by_cases hms : ms = []
      · simp [Machine.localNames, Machine.markerNames, hms]
      · simp [Machine.localNames, Machine.markerNames, hms]
    -- `firstEvent` is printed before the events, `lastEvent` after the sub-machines
    rw [printSubMachineEvents, Machine.innerNames, hlocal]
    simp only [List.map_append, List.map_cons, hown]
    rw [List.perm_iff_count] at hlist ⊢
    intro a
    have hcount := hlist a
    split_ifs
    · simp only [List.count_append, List.count_cons, List.map_nil, List.count_nil,
        List.cons_append, enumeratorName_mk hm, Machine.labelText] at hcount ⊢
      omega
    · simp only [List.count_append, List.count_cons, List.map_nil, List.map_cons, List.count_nil,
        List.cons_append, enumeratorName_mk hm, Machine.labelText] at hcount ⊢
      omega

/-- The same for the sub-machines, from the `i`-th on, of the machine at `path`. -/
lemma map_enumeratorName_printMachineListEvents {top P : Machine} (path : List ℕ) (i : ℕ) :
    ∀ ms : List Machine, Machine.AcceptedList ms → top.sub? path = some P →
      P.machineList.drop i = ms →
      ((printMachineListEvents path i ms).map fun item => enumeratorName top item.name).Perm
        ((innerNamesList ms).map (joined (printAncestry top path)))
  | [], _, _, _ => by simp [printMachineListEvents, innerNamesList]
  | m :: ms, hacc, hP, hdrop => by
    have hmi : P.machineList[i]? = some m := by
      rw [← List.head?_drop, hdrop]
      rfl
    have hm : top.sub? (path ++ [i]) = some m := by
      simp [Machine.sub?_append, hP, Machine.sub?_cons, hmi]
    have hfirst := map_enumeratorName_printSubMachineEvents (path ++ [i]) m hacc.1 hm
    have hrest := map_enumeratorName_printMachineListEvents path (i + 1) ms hacc.2 hP
      (by rw [← List.tail_drop, hdrop]; rfl)
    have hassoc : (fun v => joined (printAncestry top (path ++ [i])) v) =
        joined (printAncestry top path) ∘ joined m.info.name := by
      funext v
      rw [printAncestry_append hP hmi]
      simp [joined, String.append_assoc]
    rw [printMachineListEvents, List.map_append, innerNamesList, List.map_append, List.map_map,
      ← hassoc]
    exact hfirst.append hrest

end

/-- **The texts of the enumeration** are the inner names of the tree, after the name of the
top-level machine. -/
theorem map_enumeratorName_perm (compactActionArray : Bool) (designated : String → ℤ)
    {top : Machine} (htop : top.Accepted) :
    (enumeratorNames compactActionArray designated top).Perm
      ((top.innerNames true).map (joined top.info.name)) := by
  have hacc := (top.accepted_iff.mp htop)
  have htop' : top.sub? [] = some top := rfl
  have hlist := map_enumeratorName_printMachineListEvents [] 0 top.machineList
    ((Machine.acceptedList_iff _).mpr hacc.2.2) htop' rfl
  have hevents := map_enumeratorName_eventNames htop'
  obtain ⟨i, rest, heq, hrest, -⟩ := printTopEvents_eq compactActionArray designated hacc.1
  obtain ⟨k, hk⟩ := Nat.exists_eq_succ_of_ne_zero (List.length_pos_of_ne_nil hacc.1).ne'
  have hrest' := congrArg (List.map (enumeratorName top)) hrest
  rw [List.map_map, Function.comp_def] at hrest'
  rw [hk, Nat.succ_eq_add_one, eventNames_succ] at hevents
  rw [hk, Nat.succ_eq_add_one, Nat.add_sub_cancel] at hrest'
  have hname : printAncestry top [] = top.info.name := rfl
  rw [hname] at hlist hevents
  rw [enumeratorNames, commonHeaderStart, heq, Machine.innerNames_eq, Machine.localNames,
    Machine.markerNames, if_pos rfl]
  simp only [List.map_append, List.map_cons, List.map_nil, hrest', List.cons_append]
  rw [← hevents]
  rw [List.perm_iff_count] at hlist ⊢
  intro a
  have hcount := hlist a
  unfold closingNames
  split_ifs
  · simp only [List.count_append, List.count_cons, List.map_nil, List.map_cons, List.count_nil,
      List.cons_append, List.map_append, enumeratorName_mk htop', Machine.labelText,
      hname] at hcount ⊢
    omega
  · simp only [List.count_append, List.count_cons, List.map_nil, List.map_cons, List.count_nil,
      List.cons_append, List.map_append, enumeratorName_mk htop', Machine.labelText,
      hname] at hcount ⊢
    omega

/-! ## Names that are told apart -/

/-- In every machine of the tree the names of the events and markers are different, and so are
those of the sub-machines; and no name continues the name of a sub-machine by an underscore and
what is found below it: an inner name of the sub-machine for the name of an event or marker, and a
common beginning of inner names of both for the name of another sub-machine. -/
def Machine.NamesApart (atTop : Bool) (P : Machine) : Prop :=
  (P.localNames atTop).Nodup ∧ (P.machineList.map (·.info.name)).Nodup ∧
    ∀ c ∈ P.machineList, ∀ w,
      (joined c.info.name w ∈ P.localNames atTop → w ∉ c.innerNames false) ∧
        ∀ d ∈ P.machineList, d.info.name = joined c.info.name w →
          ∀ v ∈ d.innerNames false, joined w v ∉ c.innerNames false

/-- The names of two sub-machines lead to different inner names. -/
lemma disjoint_map_joined_iff {c d : Machine} (hne : c.info.name ≠ d.info.name) :
    List.Disjoint ((c.innerNames false).map (joined c.info.name))
        ((d.innerNames false).map (joined d.info.name)) ↔
      (∀ w, d.info.name = joined c.info.name w →
          ∀ v ∈ d.innerNames false, joined w v ∉ c.innerNames false) ∧
        ∀ w, c.info.name = joined d.info.name w →
          ∀ v ∈ c.innerNames false, joined w v ∉ d.innerNames false := by
  constructor
  · intro h
    constructor
    · intro w hw v hv hwv
      refine h (List.mem_map_of_mem hwv) (List.mem_map.mpr ⟨v, hv, ?_⟩)
      rw [joined_eq_joined_iff]
      exact .inr (.inr ⟨w, hw, rfl⟩)
    · intro w hw v hv hwv
      refine h (List.mem_map_of_mem hv) (List.mem_map.mpr ⟨joined w v, hwv, ?_⟩)
      rw [joined_eq_joined_iff]
      exact .inr (.inl ⟨w, hw, rfl⟩)
  · rintro ⟨hd, hc⟩ a hac had
    obtain ⟨x, hx, rfl⟩ := List.mem_map.mp hac
    obtain ⟨y, hy, hxy⟩ := List.mem_map.mp had
    rcases (joined_eq_joined_iff _ _ _ _).mp hxy with ⟨hname, -⟩ | ⟨w, hw, rfl⟩ | ⟨w, hw, rfl⟩
    · exact hne hname.symm
    · exact hc w hw x hx hy
    · exact hd w hw y hy hx

/-- Every machine has a `firstEvent`. -/
lemma firstEvent_mem_innerNames (atTop : Bool) (m : Machine) :
    "firstEvent" ∈ m.innerNames atTop := by
  simp [Machine.innerNames_eq, Machine.localNames, Machine.markerNames]

/-- The inner names of the sub-machines are different if and only if those of each are, their own
names are, and none continues another by what is found below it. -/
private lemma innerNamesList_nodup_iff (ms : List Machine) :
    (innerNamesList ms).Nodup ↔
      (∀ c ∈ ms, (c.innerNames false).Nodup) ∧ (ms.map (·.info.name)).Nodup ∧
        ∀ c ∈ ms, ∀ w, ∀ d ∈ ms, d.info.name = joined c.info.name w →
          ∀ v ∈ d.innerNames false, joined w v ∉ c.innerNames false := by
  have hown : (∀ c ∈ ms, ((c.innerNames false).map (joined c.info.name)).Nodup) ↔
      ∀ c ∈ ms, (c.innerNames false).Nodup :=
    forall₂_congr fun c _ => List.nodup_map_iff (joined_injective c.info.name)
  have hnames : (ms.map (·.info.name)).Nodup ↔
      ms.Pairwise fun c d => c.info.name ≠ d.info.name := List.pairwise_map
  rw [innerNamesList_eq, List.nodup_flatMap, hown, hnames]
  constructor
  · rintro ⟨hown, hpair⟩
    refine ⟨hown, ?_, ?_⟩
    · refine hpair.imp ?_
      intro c d hdisj hname
      -- both have a `firstEvent`
      refine hdisj (List.mem_map_of_mem (firstEvent_mem_innerNames false c)) ?_
      rw [hname]
      exact List.mem_map_of_mem (firstEvent_mem_innerNames false d)
    · intro c hc w d hd hw
      have hne : c.info.name ≠ d.info.name := by
        intro hname
        exact ne_joined _ w (hname.trans hw)
      have hsymm : Std.Symm (Function.onFun List.Disjoint fun m : Machine =>
          (m.innerNames false).map (joined m.info.name)) := ⟨fun _ _ h => h.symm⟩
      have hdisj := hpair.forall hc hd (fun h => hne (h ▸ rfl))
      exact ((disjoint_map_joined_iff hne).mp hdisj).1 w hw
  · rintro ⟨hown, hnames, happart⟩
    refine ⟨hown, hnames.imp_of_mem ?_⟩
    intro c d hc hd hne
    exact (disjoint_map_joined_iff hne).mpr
      ⟨fun w hw => happart c hc w d hd hw, fun w hw => happart d hd w c hc hw⟩

/-- The inner names of a machine are different if and only if those of each sub-machine are and
the names declared in the machine are told apart. -/
private lemma innerNames_nodup_iff (atTop : Bool) (P : Machine) :
    (P.innerNames atTop).Nodup ↔
      P.NamesApart atTop ∧ ∀ c ∈ P.machineList, (c.innerNames false).Nodup := by
  have hlocal : (∀ a ∈ P.localNames atTop, ∀ b ∈ innerNamesList P.machineList, a ≠ b) ↔
      ∀ c ∈ P.machineList, ∀ w,
        joined c.info.name w ∈ P.localNames atTop → w ∉ c.innerNames false := by
    rw [innerNamesList_eq]
    constructor
    · intro h c hc w hw hwc
      exact h _ hw _ (List.mem_flatMap.mpr ⟨c, hc, List.mem_map_of_mem hwc⟩) rfl
    · intro h a ha b hb hab
      obtain ⟨c, hc, hbc⟩ := List.mem_flatMap.mp hb
      obtain ⟨w, hw, rfl⟩ := List.mem_map.mp hbc
      exact h c hc w (hab ▸ ha) hw
  rw [Machine.innerNames_eq, List.nodup_append, innerNamesList_nodup_iff, hlocal,
    Machine.NamesApart]
  constructor
  · rintro ⟨hown, ⟨hsubs, hnames, hd⟩, hc⟩
    exact ⟨⟨hown, hnames, fun c hcm w => ⟨hc c hcm w, hd c hcm w⟩⟩, hsubs⟩
  · rintro ⟨⟨hown, hnames, h⟩, hsubs⟩
    exact ⟨hown, ⟨hsubs, hnames, fun c hcm w => (h c hcm w).2⟩, fun c hcm w => (h c hcm w).1⟩

mutual

/-- The inner names of a machine are different if and only if, in it and in all machines below it,
the names are told apart. -/
theorem innerNames_nodup_iff_namesApart (atTop : Bool) :
    ∀ m : Machine, (m.innerNames atTop).Nodup ↔
      ∀ p P, m.sub? p = some P → P.NamesApart (atTop && p.isEmpty)
  | .mk info ms => by
    rw [innerNames_nodup_iff]
    have hsubs := innerNames_nodup_iff_namesApart_list ms
    constructor
    · rintro ⟨hown, hbelow⟩ p P hP
      cases p with
      | nil =>
        obtain rfl := Option.some.inj hP
        simpa using hown
      | cons k p =>
        obtain ⟨c, hc, hcP⟩ := Option.bind_eq_some_iff.mp hP
        have hmem := List.mem_of_getElem? hc
        simpa using (hsubs c hmem).mp (hbelow c hmem) p P hcP
    · intro h
      refine ⟨by simpa using h [] _ rfl, ?_⟩
      intro c hc
      apply (hsubs c hc).mpr
      intro p P hP
      obtain ⟨k, hk⟩ := List.getElem?_of_mem hc
      simpa using h (k :: p) P (by rw [Machine.sub?_cons, hk, Option.bind_some, hP])

/-- The same for each machine of a list. -/
theorem innerNames_nodup_iff_namesApart_list :
    ∀ ms : List Machine, ∀ c ∈ ms, (c.innerNames false).Nodup ↔
      ∀ p P, c.sub? p = some P → P.NamesApart (false && p.isEmpty)
  | [] => by simp
  | m :: ms => by
    intro c hc
    rcases List.mem_cons.mp hc with h | h
    · rw [h]
      exact innerNames_nodup_iff_namesApart false m
    · exact innerNames_nodup_iff_namesApart_list ms c h

end

/-! ## Distinct names -/

/-- The enumerators of the event enumeration have different texts, and so have the machines. -/
def QualifiedNamesDistinct (compactActionArray : Bool) (designated : String → ℤ) (top : Machine) :
    Prop :=
  (enumeratorNames compactActionArray designated top).Nodup ∧
    ∀ p q, (top.sub? p).isSome → (top.sub? q).isSome →
      printAncestry top p = printAncestry top q → p = q

/-- What is printed for one of several sub-machines is printed for the list. -/
lemma printSubMachineEvents_subset {ms : List Machine} {c : Machine} {k : ℕ} (path : List ℕ)
    (i : ℕ) (hc : ms[k]? = some c) :
    printSubMachineEvents (path ++ [i + k]) c ⊆ printMachineListEvents path i ms := by
  induction ms generalizing i k with
  | nil => simp at hc
  | cons m ms ih =>
    rw [printMachineListEvents]
    cases k with
    | zero =>
      obtain rfl : m = c := by simpa using hc
      exact List.subset_append_left _ _
    | succ k =>
      have := ih (i + 1) (by simpa using hc)
      rw [show i + 1 + k = i + (k + 1) by omega] at this
      exact List.Subset.trans this (List.subset_append_right _ _)

/-- Every sub-machine's `firstEvent` is printed. -/
private lemma firstEvent_mem_printSubMachineEvents {m c : Machine} {q : List ℕ} (path : List ℕ)
    (hm : m.Accepted) (hq : m.sub? q = some c) :
    ∃ item ∈ printSubMachineEvents path m, item.name = ⟨path ++ q, .firstEvent⟩ := by
  induction q generalizing m path with
  | nil =>
    cases m with
    | mk info ms =>
      refine ⟨⟨⟨path, .firstEvent⟩, .implicit⟩, ?_, by simp⟩
      obtain ⟨k, hk⟩ := Nat.exists_eq_succ_of_ne_zero (List.length_pos_of_ne_nil hm.1).ne'
      rw [printSubMachineEvents, hk, Nat.succ_eq_add_one, flatMap_printSubMachineEvent]
      simp
  | cons k q ih =>
    obtain ⟨d, hd, hdc⟩ := Option.bind_eq_some_iff.mp hq
    obtain ⟨item, hitem, hname⟩ := ih (path ++ [k])
      ((m.accepted_iff.mp hm).2.2 d (List.mem_of_getElem? hd)) hdc
    refine ⟨item, ?_, by simpa using hname⟩
    have hsub := printSubMachineEvents_subset path 0 hd
    rw [Nat.zero_add] at hsub
    cases m with
    | mk info ms =>
      rw [printSubMachineEvents]
      exact List.mem_append_left _ (List.mem_append_right _ (hsub hitem))

/-- Every machine's `firstEvent` is in the enumeration. -/
lemma firstEvent_mem_commonHeaderStart (compactActionArray : Bool) (designated : String → ℤ)
    {top c : Machine} {q : List ℕ} (htop : top.Accepted) (hq : top.sub? q = some c) :
    ∃ item ∈ commonHeaderStart compactActionArray designated top,
      item.name = ⟨q, .firstEvent⟩ := by
  rw [commonHeaderStart]
  cases q with
  | nil =>
    obtain ⟨i, rest, heq, -⟩ := printTopEvents_eq compactActionArray designated
      (top.accepted_iff.mp htop).1
    exact ⟨⟨⟨[], .firstEvent⟩, .sameAs ⟨[], .event 0⟩⟩, by simp [heq], rfl⟩
  | cons k q =>
    obtain ⟨d, hd, hdc⟩ := Option.bind_eq_some_iff.mp hq
    obtain ⟨item, hitem, hname⟩ := firstEvent_mem_printSubMachineEvents [k]
      ((top.accepted_iff.mp htop).2.2 d (List.mem_of_getElem? hd)) hdc
    have hsub := printSubMachineEvents_subset [] 0 hd
    rw [List.nil_append, Nat.zero_add] at hsub
    exact ⟨item, List.mem_append_left _ (List.mem_append_right _ (hsub hitem)), hname⟩

/-- **Qualified names.** The enumerators of the event enumeration of an accepted tree have
different texts, and its machines different names, if and only if in every machine the names of
events, markers and sub-machines are told apart.

**Proof sketch.** The texts are the inner names of the tree; two of them are the same only where
their ways into the tree part, and there one name continues the other. Machines with the same name
have `firstEvent`s with the same text. -/
theorem qualifiedNames_distinct_iff (compactActionArray : Bool) (designated : String → ℤ)
    {top : Machine} (htop : top.Accepted) :
    QualifiedNamesDistinct compactActionArray designated top ↔
      ∀ p P, top.sub? p = some P → P.NamesApart p.isEmpty := by
  have hnames : (enumeratorNames compactActionArray designated top).Nodup ↔
      ∀ p P, top.sub? p = some P → P.NamesApart p.isEmpty := by
    rw [(map_enumeratorName_perm compactActionArray designated htop).nodup_iff,
      List.nodup_map_iff (joined_injective top.info.name), innerNames_nodup_iff_namesApart]
    simp
  rw [QualifiedNamesDistinct, hnames, and_iff_left_iff_imp]
  intro h p q hp hq hpq
  obtain ⟨P, hP⟩ := Option.isSome_iff_exists.mp hp
  obtain ⟨Q, hQ⟩ := Option.isSome_iff_exists.mp hq
  obtain ⟨x, hx, hxp⟩ := firstEvent_mem_commonHeaderStart compactActionArray designated htop hP
  obtain ⟨y, hy, hyq⟩ := firstEvent_mem_commonHeaderStart compactActionArray designated htop hQ
  have hxy : x = y := by
    refine List.inj_on_of_nodup_map (hnames.mpr h) hx hy ?_
    rw [hxp, hyq, enumeratorName_mk hP, enumeratorName_mk hQ, hpq]
    rfl
  rw [hxy, hyq] at hxp
  exact (Enumerator.mk.inj hxp).1.symm

/-- A name without underscore is not joined to another. -/
lemma joined_ne_of_notMem {u v w : String} (hw : '_' ∉ w.toList) : joined u v ≠ w := by
  intro h
  rw [← h, toList_joined] at hw
  simp at hw

/-- Names are told apart where none has an underscore, if those declared in the machine are
different and no event is called like a marker. -/
private lemma Machine.namesApart_of_no_underscore {atTop : Bool} {P : Machine}
    (hlocal : (P.localNames atTop).Nodup) (hsubs : (P.machineList.map (·.info.name)).Nodup)
    (hevents : ∀ e ∈ P.eventList, '_' ∉ e.name.toList)
    (hmachines : ∀ c ∈ P.machineList, '_' ∉ c.info.name.toList) : P.NamesApart atTop := by
  have hmarkers : ∀ b ∈ P.markerNames atTop, '_' ∉ b.toList := by
    intro b hb
    have hmem : b ∈ ["firstEvent", "noEvent", "lastEvent", "numEvents", "numAllEvents"] := by
      unfold markerNames at hb
      split_ifs at hb <;> simp at hb ⊢ <;> tauto
    clear hb
    revert b
    decide
  refine ⟨hlocal, hsubs, ?_⟩
  intro c hc w
  constructor
  · intro hw
    rcases List.mem_append.mp hw with h | h
    · obtain ⟨e, he, hew⟩ := List.mem_map.mp h
      exact absurd hew.symm (joined_ne_of_notMem (hevents e he))
    · exact absurd rfl (joined_ne_of_notMem (hmarkers _ h))
  · intro d hd hdw
    exact absurd hdw.symm (joined_ne_of_notMem (hmachines d hd))

/-- Without underscores in the names of a tree's events and sub-machines, all qualified names are
different if in each machine the names of events and markers are, and those of sub-machines. -/
theorem qualifiedNames_distinct_of_no_underscore (compactActionArray : Bool)
    (designated : String → ℤ) {top : Machine} (htop : top.Accepted)
    (hnames : ∀ p P, top.sub? p = some P →
      (P.localNames p.isEmpty).Nodup ∧ (P.machineList.map (·.info.name)).Nodup ∧
        (∀ e ∈ P.eventList, '_' ∉ e.name.toList) ∧
          ∀ c ∈ P.machineList, '_' ∉ c.info.name.toList) :
    QualifiedNamesDistinct compactActionArray designated top := by
  apply (qualifiedNames_distinct_iff compactActionArray designated htop).mpr
  intro p P hP
  obtain ⟨hlocal, hsubs, hevents, hmachines⟩ := hnames p P hP
  exact Machine.namesApart_of_no_underscore hlocal hsubs hevents hmachines

/-- An event `a_e` beside a sub-machine `a` with an event `e`. -/
def underscoreMachine : Machine := plainMachine "top" "a_e" "s" [plainMachine "a" "e" "t" []]

/-- The event `a_e` of the top-level machine and the event `e` of the machine `a` have one name. -/
theorem not_qualifiedNamesDistinct_underscoreMachine :
    underscoreMachine.Accepted ∧
      enumeratorName underscoreMachine ⟨[], .event 0⟩ = "top_a_e" ∧
      enumeratorName underscoreMachine ⟨[0], .event 0⟩ = "top_a_e" ∧
      ¬ QualifiedNamesDistinct false (fun _ => 0) underscoreMachine := by
  have hacc : underscoreMachine.Accepted := by
    simp [underscoreMachine, plainMachine, Machine.Accepted, Machine.AcceptedList]
  refine ⟨hacc, by decide, by decide, ?_⟩
  intro h
  have := h.1
  revert this
  decide

/-- The names of a tree of five machines are different. -/
theorem qualifiedNames_distinct_overlapMachine :
    QualifiedNamesDistinct false (fun _ => 0) overlapMachine := by
  have hacc : overlapMachine.Accepted := by
    simp [overlapMachine, plainMachine, Machine.Accepted, Machine.AcceptedList]
  have hinner : (overlapMachine.innerNames true).Nodup := by decide
  apply (qualifiedNames_distinct_iff false (fun _ => 0) hacc).mpr
  intro p P hP
  simpa using (innerNames_nodup_iff_namesApart true overlapMachine).mp hinner p P hP

end FsmLang
