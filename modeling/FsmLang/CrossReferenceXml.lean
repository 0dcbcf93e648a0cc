import Mathlib.Tactic
import FsmLang.CrossReferenceFiles
import FsmLang.CrossReferenceJson
import FsmLang.Documents.Tags

set_option relaxedAutoImplicit false
set_option autoImplicit false

/-!
# The XML cross-reference file

Every entry of the XML file is an element without content. The entries for events are within an
element `event_xrefs`. Those for the states of a machine follow a start tag `states_xrefs` and are
followed by an end tag `states_xref`, so that the tags match only in a file without states.

## Main definitions

* `entryXml`, `machineXml` — the texts of an entry and of a machine with its states.
* `allEventTags`, `allMachineTags` — their tags.

## Main results

* `writeCEventXRefXML_eq` — the text of the file.
* `scanTags_writeCEventXRefXML` — its tags.
* `xrefFilesRight_iff` — when the cross-reference files are right.
-/

namespace FsmLang

open Documents

namespace Xref

/-! ## The text -/

/-- The text of an entry. -/
def entryXml (str name : String) (n : ℕ) : List Char := '<' :: (entryTag str name n ++ ['>', '\n'])

/-- The text of the states of a machine. -/
def machineXml (top : Machine) (p : List ℕ × Machine) : List Char :=
  ("<states_xrefs machine_name=\"" ++ printAncestry top p.1 ++ "\">\n").toList ++
    p.2.stateList.zipIdx.flatMap (fun s =>
      entryXml "state_xref" (printNameWithAncestry s.1.name top p.1) s.2) ++
    "</states_xref>\n".toList

section XmlSteps

variable {top : Machine} {ih : IteratorHelper}

/-- An entry. -/
lemma printXrefEntryXml_eq {n : ℕ} (hn : ih.counter0 = some n) (name : String) :
    printXrefEntryXml top name ih = some { ih with
      counter0 := some (n + 1)
      out := ih.out ++ entryXml ih.str (printNameWithAncestry name top ih.pmi) n } := by
  simp [printXrefEntryXml, hn, IteratorHelper.fprintf, entryXml, entryTag]

/-- The entries for some names. -/
private lemma foldlM_printXrefEntryXml (ss : List State) {n : ℕ} (hn : ih.counter0 = some n) :
    ss.foldlM (fun ih s => printXrefEntryXml top s.name ih) ih = some { ih with
      counter0 := some (n + ss.length)
      out := ih.out ++ (ss.zipIdx n).flatMap fun s =>
        entryXml ih.str (printNameWithAncestry s.1.name top ih.pmi) s.2 } := by
  induction ss generalizing ih n with
  | nil => simp [← hn]
  | cons s ss hrest =>
    rw [List.foldlM_cons, printXrefEntryXml_eq hn, Option.bind_eq_bind, Option.bind_some,
      hrest rfl]
    simp [List.zipIdx_cons, Nat.add_comm, Nat.add_left_comm]

/-- A machine with its states. -/
private lemma printMachineStatesXml_eq (hn : ih.counter0 = some 0) (hstr : ih.str = "state_xref")
    (m : Machine) :
    printMachineStatesXml top m ih = some { ih with
      first := true
      counter0 := some m.stateList.length
      out := ih.out ++ machineXml top (ih.pmi, m) } := by
  have hstart : ({ ih.fprintf ("<states_xrefs machine_name=\"" ++ printAncestry top ih.pmi ++
      "\">\n") with first := true } : IteratorHelper).counter0 = some 0 := hn
  rw [printMachineStatesXml, foldlM_printXrefEntryXml m.stateList hstart, Option.map_some]
  simp [IteratorHelper.fprintf, machineXml, hstr]

end XmlSteps

section XmlFile

variable (T : NamedTree) (before : List Char)

/-- The XML of the state cross-reference after some machines. -/
private lemma keepsMachines_xml : KeepsMachines T.top (xmlWriter T.top)
    fun done ih => ih.str = "state_xref" ∧ ih.out = before ++ done.flatMap (machineXml T.top) where
  machine := by
    rintro done ih m hm hn ⟨hstr, hout⟩
    refine ⟨_, printMachineStatesXml_eq hn hstr m, hstr, ?_⟩
    simp [hout]
  helper := fun _ _ _ _ h => h

/-- The XML of the event cross-reference after some entries. -/
private lemma keepsEntries_xml : KeepsEntries T.top (xmlWriter T.top)
    fun es ih => ih.counter0 = some es.length ∧ ih.str = "event_xref" ∧
      ih.out = before ++ es.zipIdx.flatMap fun x =>
        entryXml "event_xref" (enumeratorName T.top x.1) x.2 where
  entry := by
    rintro es ih m l hm ⟨hn, hstr, hout⟩
    refine ⟨_, printXrefEntryXml_eq hn (m.labelText l), rfl, by simp, hstr, ?_⟩
    have hevent : enumeratorName T.top ⟨ih.pmi, l⟩ =
        printNameWithAncestry (m.labelText l) T.top ih.pmi := enumeratorName_mk hm l
    simp [hstr, hout, List.zipIdx_append, hevent]
  pmi := fun _ _ _ h => h

/-- The text of the XML file. -/
lemma writeCEventXRefXML_eq (includeStateCrossRefs : Bool) :
    writeCEventXRefXML T.top includeStateCrossRefs =
      some ((if includeStateCrossRefs then "<xrefs>\n".toList else []) ++
        (("<event_xrefs machine_name='" ++ T.top.info.name ++ "'>\n").toList ++
          ((writeCEventXRef T.top).flatMap (fun x =>
            entryXml "event_xref" (enumeratorName T.top x.1) x.2) ++
            ("</event_xrefs>\n".toList ++ if includeStateCrossRefs then
              (T.top.printOrder []).flatMap (machineXml T.top) ++ "</xrefs>\n".toList else [])))) := by
  have hevents : ∀ before : List Char, ∃ ih', writeEvents (xmlWriter T.top) T.top
      ⟨[], false, some 0, "event_xref", before⟩ = some ih' ∧
        ih'.out = before ++ (writeCEventXRef T.top).flatMap fun x =>
          entryXml "event_xref" (enumeratorName T.top x.1) x.2 := by
    intro before
    have hpmi : (⟨[], false, some 0, "event_xref", before⟩ : IteratorHelper).pmi = [] := rfl
    obtain ⟨ih', hwrite, -, -, hout⟩ :=
      (keepsEntries_xml T before).writeEvents hpmi ⟨rfl, rfl, by simp⟩
    rw [zipIdx_writeCEventXRef] at hout
    exact ⟨ih', hwrite, hout⟩
  have hstates : ∀ before : List Char, writeCStateXRefXML T.top before =
      some (before ++ (T.top.printOrder []).flatMap (machineXml T.top)) := by
    intro before
    have hpmi : (⟨[], true, some 0, "state_xref", before⟩ : IteratorHelper).pmi = [] := rfl
    obtain ⟨ih', hwrite, -, hout⟩ :=
      (keepsMachines_xml T before).writeStates hpmi rfl ⟨rfl, by simp⟩
    rw [writeCStateXRefXML, hwrite, Option.map_some, hout]
  cases includeStateCrossRefs with
  | false =>
    obtain ⟨ih', hwrite, hout⟩ :=
      hevents ("<event_xrefs machine_name='" ++ T.top.info.name ++ "'>\n").toList
    have hfile : writeCEventXRefXML T.top false =
        some (ih'.fprintf "</event_xrefs>\n").out := by
      rw [writeCEventXRefXML]
      exact (congrArg (Option.bind · _) hwrite).trans rfl
    rw [hfile, IteratorHelper.fprintf, hout]
    simp
  | true =>
    obtain ⟨ih', hwrite, hout⟩ := hevents ("<xrefs>\n".toList ++
      ("<event_xrefs machine_name='" ++ T.top.info.name ++ "'>\n").toList)
    have hfile : writeCEventXRefXML T.top true =
        (writeCStateXRefXML T.top (ih'.fprintf "</event_xrefs>\n").out).map
          (· ++ "</xrefs>\n".toList) := by
      rw [writeCEventXRefXML]
      exact (congrArg (Option.bind · _) hwrite).trans rfl
    rw [hfile, hstates, IteratorHelper.fprintf, hout]
    simp

/-! ## The tags -/

section Tags

variable {α : Type*} {str : String} {name : α → String} {num : α → ℕ}

/-- An entry is the tag of an element without content. -/
lemma isEmptyTag_entryTag (hstr : IsWord str) (s : String) (n : ℕ) :
    IsEmptyTag (entryTag str s n) := by
  constructor
  · have hslash := hstr.notMem (d := '/') (by decide)
    intro hend
    unfold IsEndTag entryTag at hend
    cases hchars : str.toList with
    | nil => simp [hchars] at hend
    | cons c cs =>
      rw [hchars] at hslash
      simp only [String.toList_append, hchars, List.cons_append, List.head?_cons,
        Option.some.injEq] at hend
      exact hslash (by simp [hend])
  · rw [entryTag, String.toList_append, List.getLast?_append]
    rfl

/-- The brackets of tags do not occur in a tag. -/
lemma notMem_entryTag (hstr : IsWord str) {s : String} (hs : IsWord s) (n : ℕ) {d : Char}
    (hd : d = '<' ∨ d = '>') : d ∉ entryTag str s n := by
  have hword : d.isAlphanum = false ∧ d ≠ '_' := by
    rcases hd with rfl | rfl <;> decide
  have hindex : d ∉ (" index='").toList := by
    rcases hd with rfl | rfl <;> decide
  have hname : d ∉ ("' name='").toList := by
    rcases hd with rfl | rfl <;> decide
  have hclose : d ∉ ("'/").toList := by
    rcases hd with rfl | rfl <;> decide
  simp only [entryTag, String.toList_append, List.mem_append, not_or]
  exact ⟨⟨⟨⟨⟨hstr.notMem hword, hindex⟩, (isWord_repr _).notMem hword⟩, hname⟩, hs.notMem hword⟩,
    hclose⟩

/-- The entries of a list. -/
lemma scanTags_entries (hstr : IsWord str) {xs : List α} (hname : ∀ x ∈ xs, IsWord (name x))
    (cs : List Char) :
    scanTags (xs.flatMap (fun x => entryXml str (name x) (num x)) ++ cs) =
      (scanTags cs).map ((xs.map fun x => entryTag str (name x) (num x)) ++ ·) := by
  induction xs with
  | nil => simp
  | cons x xs ih =>
    have hx := hname x List.mem_cons_self
    have hrest := ih fun y hy => hname y (List.mem_cons_of_mem x hy)
    rw [List.flatMap_cons, List.append_assoc, entryXml, List.cons_append, List.append_assoc]
    rw [List.cons_append, List.cons_append, List.nil_append, scanTags_line
      (notMem_entryTag hstr hx _ (.inl rfl)) (notMem_entryTag hstr hx _ (.inr rfl)), hrest,
      Option.map_map]
    rfl

end Tags

/-- The tags for the states of a machine, with those around them. -/
def allMachineTags (top : Machine) (p : List ℕ × Machine) : List (List Char) :=
  ("states_xrefs".toList ++ ' ' :: ("machine_name=\"" ++ printAncestry top p.1 ++ "\"").toList) ::
    (machineTags top p ++ ["/states_xref".toList])

/-- The tags for the events, with those around them. -/
def allEventTags (top : Machine) : List (List Char) :=
  ("event_xrefs".toList ++ ' ' :: ("machine_name='" ++ top.info.name ++ "'").toList) ::
    ((writeCEventXRef top).map (fun x => entryTag "event_xref" (enumeratorName top x.1) x.2) ++
      ["/event_xrefs".toList])

/-- The tags of a machine. -/
private lemma scanTags_machineXml {p : List ℕ × Machine} (hp : T.top.sub? p.1 = some p.2)
    (cs : List Char) :
    scanTags (machineXml T.top p ++ cs) = (scanTags cs).map (allMachineTags T.top p ++ ·) := by
  have hword := isWord_printAncestry T.machineWord p.1
  have hstates : ∀ s ∈ p.2.stateList.zipIdx,
      IsWord (printNameWithAncestry s.1.name T.top p.1) := fun s hs =>
    T.isWord_printNameWithAncestry p.1 (T.stateWord _ _ hp s.1 (List.fst_mem_of_mem_zipIdx hs))
  have hstart : ∀ d, d = '<' ∨ d = '>' → d ∉ ("states_xrefs".toList ++
      ' ' :: ("machine_name=\"" ++ printAncestry T.top p.1 ++ "\"").toList) := by
    intro d hd
    have hanc : d ∉ (printAncestry T.top p.1).toList :=
      hword.notMem (by rcases hd with rfl | rfl <;> decide)
    rcases hd with rfl | rfl <;> simpa using hanc
  have hform : machineXml T.top p ++ cs = '<' :: (("states_xrefs".toList ++
      ' ' :: ("machine_name=\"" ++ printAncestry T.top p.1 ++ "\"").toList) ++ '>' :: '\n' ::
        (p.2.stateList.zipIdx.flatMap (fun s =>
          entryXml "state_xref" (printNameWithAncestry s.1.name T.top p.1) s.2) ++
            '<' :: ("/states_xref".toList ++ '>' :: '\n' :: cs))) := by
    simp [machineXml]
  rw [hform, scanTags_line (hstart _ (.inl rfl)) (hstart _ (.inr rfl)),
    scanTags_entries (by decide) hstates, scanTags_line (by decide) (by decide)]
  cases scanTags cs with
  | none => rfl
  | some ts => simp [allMachineTags, machineTags]

/-- The tags of some machines. -/
private lemma scanTags_flatMap_machineXml {ps : List (List ℕ × Machine)}
    (hps : ∀ p ∈ ps, T.top.sub? p.1 = some p.2) (cs : List Char) :
    scanTags (ps.flatMap (machineXml T.top) ++ cs) =
      (scanTags cs).map (ps.flatMap (allMachineTags T.top) ++ ·) := by
  induction ps with
  | nil => simp
  | cons p ps ih =>
    rw [List.flatMap_cons, List.append_assoc, scanTags_machineXml T (hps p List.mem_cons_self),
      ih fun q hq => hps q (List.mem_cons_of_mem p hq), Option.map_map]
    simp [Function.comp_def]

/-- The part of the XML file for the events. -/
lemma scanTags_events (cs : List Char) :
    scanTags (("<event_xrefs machine_name='" ++ T.top.info.name ++ "'>\n").toList ++
      ((writeCEventXRef T.top).flatMap (fun x =>
        entryXml "event_xref" (enumeratorName T.top x.1) x.2) ++
        ("</event_xrefs>\n".toList ++ cs))) =
      (scanTags cs).map (allEventTags T.top ++ ·) := by
  have hstart : ∀ d, d = '<' ∨ d = '>' → d ∉ ("event_xrefs".toList ++
      ' ' :: ("machine_name='" ++ T.top.info.name ++ "'").toList) := by
    intro d hd
    have hname : d ∉ T.top.info.name.toList :=
      (T.machineWord [] T.top rfl).notMem (by rcases hd with rfl | rfl <;> decide)
    rcases hd with rfl | rfl <;> simpa using hname
  have hnames : ∀ x ∈ writeCEventXRef T.top, IsWord (enumeratorName T.top x.1) :=
    fun x _ => T.isWord_enumeratorName x.1
  have hform : ("<event_xrefs machine_name='" ++ T.top.info.name ++ "'>\n").toList ++
      ((writeCEventXRef T.top).flatMap (fun x =>
        entryXml "event_xref" (enumeratorName T.top x.1) x.2) ++
        ("</event_xrefs>\n".toList ++ cs)) =
      '<' :: (("event_xrefs".toList ++ ' ' :: ("machine_name='" ++ T.top.info.name ++ "'").toList) ++
        '>' :: '\n' :: ((writeCEventXRef T.top).flatMap (fun x =>
          entryXml "event_xref" (enumeratorName T.top x.1) x.2) ++
            '<' :: ("/event_xrefs".toList ++ '>' :: '\n' :: cs))) := by
    simp
  rw [hform, scanTags_line (hstart _ (.inl rfl)) (hstart _ (.inr rfl)),
    scanTags_entries (by decide) hnames, scanTags_line (by decide) (by decide)]
  cases scanTags cs with
  | none => rfl
  | some ts => simp [allEventTags]

/-- **The tags of the XML file.** -/
theorem scanTags_writeCEventXRefXML (includeStateCrossRefs : Bool) : ∃ out,
    writeCEventXRefXML T.top includeStateCrossRefs = some out ∧
      scanTags out = some (if includeStateCrossRefs then
        "xrefs".toList :: (allEventTags T.top ++
          ((T.top.printOrder []).flatMap (allMachineTags T.top) ++ ["/xrefs".toList]))
      else allEventTags T.top) := by
  refine ⟨_, writeCEventXRefXML_eq T includeStateCrossRefs, ?_⟩
  have hpaths : ∀ p ∈ T.top.printOrder [], T.top.sub? p.1 = some p.2 := by
    rintro ⟨p, m⟩ hp
    obtain ⟨q, rfl, hm⟩ := (mem_printOrder_iff [] T.top p m).mp hp
    exact hm
  cases includeStateCrossRefs with
  | false =>
    have hevents := scanTags_events T []
    simpa [scanTags_nil] using hevents
  | true =>
    have hclose : scanTags "</xrefs>\n".toList = some ["/xrefs".toList] := by decide
    have hopen : ∀ cs, scanTags ("<xrefs>\n".toList ++ cs) =
        (scanTags cs).map ("xrefs".toList :: ·) := fun cs =>
      scanTags_line (t := "xrefs".toList) (by decide) (by decide) cs
    rw [if_pos rfl, if_pos rfl, if_pos rfl, hopen, scanTags_events,
      scanTags_flatMap_machineXml T hpaths, hclose]
    rfl

/-! ## When the files are right -/

/-- The entries among the tags for the events. -/
private lemma filter_allEventTags (top : Machine) :
    (allEventTags top).filter (fun t => IsEmptyTag t) =
      (writeCEventXRef top).map fun x => entryTag "event_xref" (enumeratorName top x.1) x.2 := by
  have hentries : ((writeCEventXRef top).map fun x =>
      entryTag "event_xref" (enumeratorName top x.1) x.2).filter (fun t => IsEmptyTag t) =
        (writeCEventXRef top).map fun x => entryTag "event_xref" (enumeratorName top x.1) x.2 :=
    List.filter_eq_self.mpr fun t ht => by
      obtain ⟨x, -, rfl⟩ := List.mem_map.mp ht
      simpa using isEmptyTag_entryTag (by decide) _ _
  have hstart : ¬ IsEmptyTag ("event_xrefs".toList ++
      ' ' :: ("machine_name='" ++ top.info.name ++ "'").toList) := by
    rintro ⟨-, hlast⟩
    simp [List.getLast?_append, List.getLast?_cons] at hlast
  have hend : ¬ IsEmptyTag "/event_xrefs".toList := by decide
  rw [allEventTags, filter_isEmptyTag_cons hstart, List.filter_append, hentries,
    filter_isEmptyTag_cons hend, List.filter_nil, List.append_nil]

/-- The tags for the events match. -/
lemma foldlM_matchTag_allEventTags (top : Machine) (opened ts : List (List Char)) :
    (allEventTags top ++ ts).foldlM matchTag opened = ts.foldlM matchTag opened := by
  have hstart : matchTag opened ("event_xrefs".toList ++
      ' ' :: ("machine_name='" ++ top.info.name ++ "'").toList) =
        some ("event_xrefs".toList :: opened) :=
    matchTag_start (by decide) (by decide) (by simp [List.getLast?_append, List.getLast?_cons]) _
  have hend : matchTag ("event_xrefs".toList :: opened) "/event_xrefs".toList = some opened := rfl
  rw [allEventTags, foldlM_matchTag_element hstart, hend]
  · rfl
  · intro t ht
    obtain ⟨x, -, rfl⟩ := List.mem_map.mp ht
    exact isEmptyTag_entryTag (by decide) _ _

/-- The tags for the states of a machine do not match. -/
private lemma foldlM_matchTag_allMachineTags (top : Machine) (p : List ℕ × Machine)
    (opened ts : List (List Char)) :
    (allMachineTags top p ++ ts).foldlM matchTag opened = none := by
  have hstart : matchTag opened ("states_xrefs".toList ++
      ' ' :: ("machine_name=\"" ++ printAncestry top p.1 ++ "\"").toList) =
        some ("states_xrefs".toList :: opened) :=
    matchTag_start (by decide) (by decide) (by simp [List.getLast?_append, List.getLast?_cons]) _
  have hend : matchTag ("states_xrefs".toList :: opened) "/states_xref".toList = none := rfl
  rw [allMachineTags, foldlM_matchTag_element hstart, hend]
  · rfl
  · intro t ht
    obtain ⟨s, -, rfl⟩ := List.mem_map.mp ht
    exact isEmptyTag_entryTag (by decide) _ _

/-- With states the tags do not match. -/
lemma not_xrefFilesRight_states : ¬ XrefFilesRight T.top true := by
  intro h
  obtain ⟨out, hout, htags⟩ := scanTags_writeCEventXRefXML T true
  obtain ⟨out', hout', ⟨ts, hts, hmatch⟩, -⟩ := h.xml
  obtain rfl := Option.some.inj (hout.symm.trans hout')
  obtain rfl := Option.some.inj (htags.symm.trans hts)
  have hopen : matchTag [] "xrefs".toList = some ["xrefs".toList] := by decide
  rw [if_pos rfl, List.foldlM_cons, hopen, Option.bind_eq_bind, Option.bind_some,
    foldlM_matchTag_allEventTags, Machine.printOrder_eq, List.flatMap_cons, List.append_assoc,
    foldlM_matchTag_allMachineTags] at hmatch
  cases hmatch

/-- **The cross-reference files.** For every tree of machines that is accepted, the files are right
if and only if they are to have no states.

**Proof sketch.** The JSON file is right, and the entries are there, in any case. In the XML file
the tags for the events match; those for the states of the top-level machine, which come first, do
not. -/
theorem xrefFilesRight_iff (includeStateCrossRefs : Bool) :
    XrefFilesRight T.top includeStateCrossRefs ↔ includeStateCrossRefs = false := by
  constructor
  · intro h
    cases includeStateCrossRefs with
    | false => rfl
    | true => exact absurd h (not_xrefFilesRight_states T)
  · rintro rfl
    obtain ⟨out, hout, htags⟩ := scanTags_writeCEventXRefXML T false
    refine ⟨exists_writeCEventXRefJSON T false, ⟨out, hout, ⟨_, htags, ?_⟩, ?_⟩,
      fun path m i hm hi => count_event_writeCEventXRef hm hi,
      fun path m i hm hi => count_flatMap_printOrder (fun m => m.stateList.length) hm hi⟩
    · have hmatch := foldlM_matchTag_allEventTags T.top [] []
      simpa using hmatch
    · rw [htags]
      simp [filter_allEventTags, xrefTags]

end XmlFile

/-- A machine with one event and one state. -/
def flatTree : NamedTree where
  top := .mk { name := "top", eventList := [{ name := "e" }], stateList := [{ name := "s" }] } []
  accepted := by simp [Machine.Accepted, Machine.AcceptedList]
  machineWord := by
    intro path m hm
    cases path with
    | nil =>
      obtain rfl := Option.some.inj hm
      exact (by decide : IsWord "top")
    | cons k path => simp [Machine.sub?_cons] at hm
  eventWord := by
    intro path m hm
    cases path with
    | nil =>
      obtain rfl := Option.some.inj hm
      decide
    | cons k path => simp [Machine.sub?_cons] at hm
  stateWord := by
    intro path m hm
    cases path with
    | nil =>
      obtain rfl := Option.some.inj hm
      decide
    | cons k path => simp [Machine.sub?_cons] at hm

/-- The tag `states_xrefs` is not closed. -/
theorem not_xrefFilesRight_flatTree :
    ¬ XrefFilesRight flatTree.top true ∧
      (writeCEventXRefXML flatTree.top true).bind scanTags = some (["xrefs",
        "event_xrefs machine_name='top'", "event_xref index='0' name='top_e'/",
        "event_xref index='1' name='top_noEvent'/", "event_xref index='2' name='top_numEvents'/",
        "/event_xrefs", "states_xrefs machine_name=\"top\"",
        "state_xref index='0' name='top_s'/", "/states_xref", "/xrefs"].map String.toList) := by
  refine ⟨not_xrefFilesRight_states flatTree, ?_⟩
  obtain ⟨out, hout, htags⟩ := scanTags_writeCEventXRefXML flatTree true
  rw [hout, Option.bind_some, htags]
  decide +kernel

end Xref

end FsmLang
