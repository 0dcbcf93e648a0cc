import Mathlib.Data.List.Nodup
import Mathlib.Tactic
import FsmLang.Documents.Json
import FsmLang.Documents.Tags
import FsmLang.EventCrossReference
import FsmLang.QualifiedNames

set_option relaxedAutoImplicit false
set_option autoImplicit false

/-!
# Cross-reference files

`writeCEventXRef` lists the events of a tree of machines and, when it is asked to, their states, in
one of several formats. The formats share the walks over the sub-machines, which are given the
format's functions for an entry and for the states of a machine. With them goes a helper, which has
the current machine, a flag for the first entry and a pointer to the counter of entries. In the
walk for the states each call has a counter of its own and leaves the pointer to it behind.

The JSON file is a JSON text. In the XML file the start tag for the states of a machine is
`states_xrefs` and the end tag `states_xref`.

## Main definitions

* `IteratorHelper`, `XrefWriter` — the helper, and the functions of a format.
* `iterateSubMachines`, `iterateSubMachinesState` — the walks.
* `writeCEventXRefJSON`, `writeCEventXRefXML` — the files.
* `XrefFilesRight` — the files are well formed, with an entry for every event and state.

## Main results

* `KeepsEntries.writeEvents`, `KeepsMachines.writeStates` — what one call of the format's functions
  does, the walks do.
-/

namespace FsmLang

open Documents

namespace Xref

/-! ## The walks -/

/-- What the walks carry: the current machine, by its path, the flag for the first entry, the number
in the counter, `none` if the counter is that of a call that has returned, the name of the XML
entries, and what has been written to the file. -/
structure IteratorHelper where
  pmi : List ℕ
  first : Bool
  counter0 : Option ℕ
  str : String
  out : List Char

/-- Write to the file. -/
def IteratorHelper.fprintf (ih : IteratorHelper) (text : String) : IteratorHelper :=
  { ih with out := ih.out ++ text.toList }

/-- The functions of a format. There is no result if a counter is used that is gone. -/
structure XrefWriter where
  entryWriter : String → IteratorHelper → Option IteratorHelper
  machineWriter : Machine → IteratorHelper → Option IteratorHelper

variable (w : XrefWriter)

/-- The entries for the events of a machine. -/
def printEvents (m : Machine) (ih : IteratorHelper) : Option IteratorHelper :=
  m.eventList.foldlM (fun ih e => w.entryWriter e.name ih) ih

mutual

/-- The events of a sub-machine and of all below it. -/
def iterateSubMachines (path : List ℕ) : Machine → IteratorHelper → Option IteratorHelper
  | .mk info ms, ih =>
    (printEvents w (.mk info ms) { ih with pmi := path }).bind fun ih₁ =>
      (w.entryWriter "noEvent" ih₁).bind fun ih₂ =>
        (iterateSubMachineList path 0 ms ih₂).map fun ih₃ => { ih₃ with pmi := ih.pmi }

/-- The iteration over the sub-machines, from the `i`-th on, of the machine at `path`. -/
def iterateSubMachineList (path : List ℕ) (i : ℕ) :
    List Machine → IteratorHelper → Option IteratorHelper
  | [], ih => some ih
  | m :: ms, ih =>
    (iterateSubMachines (path ++ [i]) m ih).bind (iterateSubMachineList path (i + 1) ms)

end

mutual

/-- The states of a sub-machine and of all below it. The counter is a variable of the call. -/
def iterateSubMachinesState (path : List ℕ) : Machine → IteratorHelper → Option IteratorHelper
  | .mk info ms, ih =>
    (w.machineWriter (.mk info ms) { ih with pmi := path, counter0 := some 0 }).bind fun ih₁ =>
      (iterateSubMachineListState path 0 ms ih₁).map fun ih₂ =>
        { ih₂ with pmi := ih.pmi, counter0 := none }

/-- The iteration over the sub-machines, from the `i`-th on, of the machine at `path`. -/
def iterateSubMachineListState (path : List ℕ) (i : ℕ) :
    List Machine → IteratorHelper → Option IteratorHelper
  | [], ih => some ih
  | m :: ms, ih =>
    (iterateSubMachinesState (path ++ [i]) m ih).bind (iterateSubMachineListState path (i + 1) ms)

end

/-- `complete_top_level`. -/
def completeTopLevel (top : Machine) (ih : IteratorHelper) : Option IteratorHelper :=
  (if top.actionsReturn = .events then w.entryWriter "noEvent" ih else some ih).bind
    (w.entryWriter "numEvents")

/-- `process_any_sub_machines`. -/
def processAnySubMachines (top : Machine) (ih : IteratorHelper) : Option IteratorHelper :=
  if top.machineList = [] then some ih
  else (iterateSubMachineList w [] 0 top.machineList ih).bind (w.entryWriter "numAllEvents")

/-- All entries for events. -/
def writeEvents (top : Machine) (ih : IteratorHelper) : Option IteratorHelper :=
  (printEvents w top ih).bind fun ih₁ =>
    (completeTopLevel w top ih₁).bind (processAnySubMachines w top)

/-- All entries for states; the second part is `process_any_sub_machines_state`. -/
def writeStates (top : Machine) (ih : IteratorHelper) : Option IteratorHelper :=
  (w.machineWriter top ih).bind (iterateSubMachineListState w [] 0 top.machineList)

/-! ## The formats -/

section Formats

variable (top : Machine)

/-- `print_xref_entry_json`. -/
def printXrefEntryJson (name : String) (ih : IteratorHelper) : Option IteratorHelper :=
  ih.counter0.map fun n =>
    { ih with first := false, counter0 := some (n + 1) }.fprintf
      ((if ih.first then "  " else ", ") ++ "\x7b \"index\": \"" ++ Nat.repr (n % 2 ^ 32) ++
        "\", \"name\": \"" ++ printNameWithAncestry name top ih.pmi ++ "\" \x7d\n")

/-- `print_machine_states_json`. -/
def printMachineStatesJson (m : Machine) (ih : IteratorHelper) : Option IteratorHelper :=
  let ih₁ := ih.fprintf ((if ih.first then " " else ",") ++ " \x7b\n \"name\": \"" ++
    printAncestry top ih.pmi ++ "\", \"states\" :[\n")
  (m.stateList.foldlM (fun ih s => printXrefEntryJson top s.name ih) { ih₁ with first := true }).map
    (·.fprintf "  ]\n  \x7d\n")

/-- `json_writer`. -/
def jsonWriter : XrefWriter := ⟨printXrefEntryJson top, printMachineStatesJson top⟩

/-- `print_xref_entry_xml`. -/
def printXrefEntryXml (name : String) (ih : IteratorHelper) : Option IteratorHelper :=
  ih.counter0.map fun n =>
    { ih with counter0 := some (n + 1) }.fprintf
      ("<" ++ ih.str ++ " index='" ++ Nat.repr (n % 2 ^ 32) ++ "' name='" ++
        printNameWithAncestry name top ih.pmi ++ "'/>\n")

/-- `print_machine_states_xml`. -/
def printMachineStatesXml (m : Machine) (ih : IteratorHelper) : Option IteratorHelper :=
  let ih₁ := ih.fprintf ("<states_xrefs machine_name=\"" ++ printAncestry top ih.pmi ++ "\">\n")
  (m.stateList.foldlM (fun ih s => printXrefEntryXml top s.name ih) { ih₁ with first := true }).map
    (·.fprintf "</states_xref>\n")

/-- `xml_writer`. -/
def xmlWriter : XrefWriter := ⟨printXrefEntryXml top, printMachineStatesXml top⟩

/-- `writeCStateXRefJSON`, which goes on with the file. -/
def writeCStateXRefJSON (out : List Char) : Option (List Char) :=
  let ih : IteratorHelper := ⟨[], true, some 0, "", out⟩
  (writeStates (jsonWriter top) top (ih.fprintf "\n, \"state_xrefs\": [\n")).map fun ih₁ =>
    (ih₁.fprintf "\n]\n").out

/-- `writeCEventXRefJSON`. -/
def writeCEventXRefJSON (includeStateCrossRefs : Bool) : Option (List Char) :=
  let ih : IteratorHelper := ⟨[], true, some 0, "", []⟩
  (writeEvents (jsonWriter top) top (ih.fprintf "\x7b\n\"event_xrefs\":[\n")).bind fun ih₁ =>
    let out := (ih₁.fprintf "]\n").out
    (if includeStateCrossRefs then writeCStateXRefJSON top out else some out).map
      (· ++ "\x7d\n".toList)

/-- `writeCStateXRefXML`, which goes on with the file. -/
def writeCStateXRefXML (out : List Char) : Option (List Char) :=
  (writeStates (xmlWriter top) top ⟨[], true, some 0, "state_xref", out⟩).map (·.out)

/-- `writeCEventXRefXML`. -/
def writeCEventXRefXML (includeStateCrossRefs : Bool) : Option (List Char) :=
  let ih : IteratorHelper := ⟨[], false, some 0, "event_xref", []⟩
  let ih₁ := if includeStateCrossRefs then ih.fprintf "<xrefs>\n" else ih
  (writeEvents (xmlWriter top) top
    (ih₁.fprintf ("<event_xrefs machine_name='" ++ top.info.name ++ "'>\n"))).bind fun ih₂ =>
      let out := (ih₂.fprintf "</event_xrefs>\n").out
      if includeStateCrossRefs then
        (writeCStateXRefXML top out).map (· ++ "</xrefs>\n".toList)
      else some out

end Formats

/-! ## What the files are to hold -/

/-- A text of letters, digits and underscores. -/
def IsWord (s : String) : Prop := ∀ c ∈ s.toList, c.isAlphanum = true ∨ c = '_'

instance : DecidablePred IsWord := fun s => List.decidableBAll _ s.toList

/-- A tree of machines that is accepted. Names are identifiers. -/
structure NamedTree where
  top : Machine
  accepted : top.Accepted
  machineWord : ∀ path m, top.sub? path = some m → IsWord m.info.name
  eventWord : ∀ path m, top.sub? path = some m → ∀ e ∈ m.eventList, IsWord e.name
  stateWord : ∀ path m, top.sub? path = some m → ∀ s ∈ m.stateList, IsWord s.name

section Content

variable (top : Machine)

/-- An entry of the JSON file. -/
def entryJson (name : String) (n : ℕ) : Json :=
  .object [("index", .string (Nat.repr (n % 2 ^ 32))), ("name", .string name)]

/-- The states of a machine in the JSON file. -/
def machineJson (p : List ℕ × Machine) : Json :=
  .object [("name", .string (printAncestry top p.1)), ("states", .array
    (p.2.stateList.zipIdx.map fun s => entryJson (printNameWithAncestry s.1.name top p.1) s.2))]

/-- The JSON file. -/
def xrefsJson (includeStateCrossRefs : Bool) : Json :=
  .object (("event_xrefs", .array
      ((writeCEventXRef top).map fun x => entryJson (enumeratorName top x.1) x.2)) ::
    if includeStateCrossRefs then
      [("state_xrefs", .array ((top.printOrder []).map (machineJson top)))]
    else [])

/-- An entry of the XML file. -/
def entryTag (str name : String) (n : ℕ) : List Char :=
  (str ++ " index='" ++ Nat.repr (n % 2 ^ 32) ++ "' name='" ++ name ++ "'/").toList

/-- The states of a machine in the XML file. -/
def machineTags (p : List ℕ × Machine) : List (List Char) :=
  p.2.stateList.zipIdx.map fun s =>
    entryTag "state_xref" (printNameWithAncestry s.1.name top p.1) s.2

/-- The entries of the XML file. -/
def xrefTags (includeStateCrossRefs : Bool) : List (List Char) :=
  ((writeCEventXRef top).map fun x => entryTag "event_xref" (enumeratorName top x.1) x.2) ++
    if includeStateCrossRefs then (top.printOrder []).flatMap (machineTags top) else []

/-- The states of a tree, each by the path of its machine and its place there. -/
def stateXrefs : List (List ℕ × ℕ) :=
  (top.printOrder []).flatMap fun p => (List.range p.2.stateList.length).map (p.1, ·)

/-- The JSON file is a JSON text with the entries, the tags of the XML file are nested and match,
and its entries are these; every event has one, and every state. -/
structure XrefFilesRight (includeStateCrossRefs : Bool) : Prop where
  json : ∃ out, writeCEventXRefJSON top includeStateCrossRefs = some out ∧
    IsElement out (xrefsJson top includeStateCrossRefs)
  xml : ∃ out, writeCEventXRefXML top includeStateCrossRefs = some out ∧ TagsMatch out ∧
    (scanTags out).map (·.filter fun t => IsEmptyTag t) = some (xrefTags top includeStateCrossRefs)
  events : ∀ path m i, top.sub? path = some m → i < m.eventList.length →
    ((writeCEventXRef top).map Prod.fst).count ⟨path, .event i⟩ = 1
  states : ∀ path m i, top.sub? path = some m → i < m.stateList.length →
    (stateXrefs top).count (path, i) = 1

end Content

/-! ## What the walks do -/

section Walks

variable {top : Machine} {w : XrefWriter} {P : List Enumerator → IteratorHelper → Prop}
  {Q : List (List ℕ × Machine) → IteratorHelper → Prop}

/-- The function for an entry keeps a property of the entries that have been written. -/
structure KeepsEntries (top : Machine) (w : XrefWriter)
    (P : List Enumerator → IteratorHelper → Prop) : Prop where
  entry : ∀ es ih m l, top.sub? ih.pmi = some m → P es ih →
    ∃ ih', w.entryWriter (m.labelText l) ih = some ih' ∧ ih'.pmi = ih.pmi ∧
      P (es ++ [⟨ih.pmi, l⟩]) ih'
  pmi : ∀ es ih path, P es ih → P es { ih with pmi := path }

/-- The events of a machine. -/
lemma KeepsEntries.printEvents (h : KeepsEntries top w P) {ih : IteratorHelper}
    {es : List Enumerator} {m : Machine} (hm : top.sub? ih.pmi = some m) (hP : P es ih) :
    ∃ ih', printEvents w m ih = some ih' ∧ ih'.pmi = ih.pmi ∧
      P (es ++ eventNames ih.pmi m.eventList.length) ih' := by
  have hrun : ∀ k, k ≤ m.eventList.length →
      ∃ ih', (m.eventList.take k).foldlM (fun ih e => w.entryWriter e.name ih) ih = some ih' ∧
        ih'.pmi = ih.pmi ∧ P (es ++ eventNames ih.pmi k) ih' := by
    intro k
    induction k with
    | zero => exact fun _ => ⟨ih, rfl, rfl, by simpa [eventNames] using hP⟩
    | succ k hk =>
      intro hle
      obtain ⟨ih₁, hfold, hpmi, hP₁⟩ := hk (by omega)
      obtain ⟨ih₂, hentry, hpmi', hP₂⟩ := h.entry _ ih₁ m (.event k) (hpmi.symm ▸ hm) hP₁
      have hlt : k < m.eventList.length := by omega
      refine ⟨ih₂, ?_, hpmi'.trans hpmi, ?_⟩
      · rw [List.take_add_one, List.getElem?_eq_getElem hlt, List.foldlM_append, hfold]
        simpa [Machine.labelText, hlt] using hentry
      · rw [hpmi, List.append_assoc] at hP₂
        simpa [eventNames, List.range_succ] using hP₂
  have hall := hrun m.eventList.length le_rfl
  rwa [List.take_length] at hall

mutual

/-- The events of a sub-machine and of all below it. -/
lemma KeepsEntries.iterateSubMachines (h : KeepsEntries top w P) (path : List ℕ) :
    ∀ (m : Machine) (ih : IteratorHelper) (es : List Enumerator), top.sub? path = some m →
      P es ih → ∃ ih', iterateSubMachines w path m ih = some ih' ∧ ih'.pmi = ih.pmi ∧
        P (es ++ FsmLang.iterateSubMachines path m) ih'
  | .mk info ms, ih, es, hm, hP => by
    have hat : P es { ih with pmi := path } := h.pmi es ih path hP
    obtain ⟨ih₁, hevents, hpmi₁, hP₁⟩ := h.printEvents hm hat
    have hm₁ : top.sub? ih₁.pmi = some (.mk info ms) := hpmi₁.symm ▸ hm
    obtain ⟨ih₂, hentry, hpmi₂, hP₂⟩ := h.entry _ ih₁ _ .noEvent hm₁ hP₁
    obtain ⟨ih₃, hlist, -, hP₃⟩ := h.iterateSubMachineList path ms 0 ih₂ _
      (fun k c hc => by rw [Machine.sub?_append, hm]; simpa [Machine.sub?_cons] using hc) hP₂
    refine ⟨{ ih₃ with pmi := ih.pmi }, ?_, rfl, h.pmi _ _ _ ?_⟩
    · rw [Xref.iterateSubMachines, hevents, Option.bind_some]
      have hentry' : w.entryWriter "noEvent" ih₁ = some ih₂ := hentry
      rw [hentry', Option.bind_some, hlist, Option.map_some]
    · rw [hpmi₁] at hP₃
      simpa [FsmLang.iterateSubMachines, List.append_assoc] using hP₃

/-- The same for a list of sub-machines. -/
lemma KeepsEntries.iterateSubMachineList (h : KeepsEntries top w P) (path : List ℕ) :
    ∀ (ms : List Machine) (i : ℕ) (ih : IteratorHelper) (es : List Enumerator),
      (∀ k c, ms[k]? = some c → top.sub? (path ++ [i + k]) = some c) → P es ih →
        ∃ ih', iterateSubMachineList w path i ms ih = some ih' ∧ ih'.pmi = ih.pmi ∧
          P (es ++ FsmLang.iterateSubMachineList path i ms) ih'
  | [], i, ih, es, _, hP => ⟨ih, rfl, rfl, by simpa [FsmLang.iterateSubMachineList] using hP⟩
  | m :: ms, i, ih, es, hsub, hP => by
    obtain ⟨ih₁, hfirst, hpmi₁, hP₁⟩ :=
      h.iterateSubMachines (path ++ [i]) m ih es (hsub 0 m rfl) hP
    obtain ⟨ih₂, hrest, hpmi₂, hP₂⟩ := h.iterateSubMachineList path ms (i + 1) ih₁ _
      (fun k c hc => by
        have hk := hsub (k + 1) c (by simpa using hc)
        rwa [show i + (k + 1) = i + 1 + k by omega] at hk) hP₁
    refine ⟨ih₂, ?_, hpmi₂.trans hpmi₁, ?_⟩
    · rw [Xref.iterateSubMachineList, hfirst, Option.bind_some, hrest]
    · simpa [FsmLang.iterateSubMachineList, List.append_assoc] using hP₂

end

/-- **All entries for events.** -/
theorem KeepsEntries.writeEvents (h : KeepsEntries top w P) {ih : IteratorHelper}
    (hpmi : ih.pmi = []) (hP : P [] ih) :
    ∃ ih', writeEvents w top ih = some ih' ∧ P ((writeCEventXRef top).map Prod.fst) ih' := by
  have hlabel : ∀ es ih₁ l, ih₁.pmi = [] → P es ih₁ →
      ∃ ih', w.entryWriter (top.labelText l) ih₁ = some ih' ∧ ih'.pmi = [] ∧
        P (es ++ [⟨[], l⟩]) ih' := by
    intro es ih₁ l hnil hP₁
    obtain ⟨ih', hentry, hpmi', hP'⟩ := h.entry es ih₁ top l (by rw [hnil]; rfl) hP₁
    rw [hnil] at hpmi' hP'
    exact ⟨ih', hentry, hpmi', hP'⟩
  obtain ⟨ih₁, hevents, hpmi₁, hP₁⟩ := h.printEvents (by rw [hpmi]; rfl) hP
  rw [hpmi, List.nil_append] at hP₁
  rw [hpmi] at hpmi₁
  have htop : ∃ ih₂, (if top.actionsReturn = .events then w.entryWriter "noEvent" ih₁
      else some ih₁) = some ih₂ ∧ ih₂.pmi = [] ∧ P (topSlotNames top) ih₂ := by
    unfold topSlotNames
    split_ifs with hreturn
    · exact hlabel _ ih₁ .noEvent hpmi₁ hP₁
    · exact ⟨ih₁, rfl, hpmi₁, by simpa using hP₁⟩
  obtain ⟨ih₂, hnoEvent, hpmi₂, hP₂⟩ := htop
  obtain ⟨ih₃, hnumEvents, hpmi₃, hP₃⟩ := hlabel _ ih₂ .numEvents hpmi₂ hP₂
  have hcomplete : completeTopLevel w top ih₁ = some ih₃ := by
    rw [completeTopLevel, hnoEvent]
    exact hnumEvents
  rw [Xref.writeEvents, hevents, Option.bind_some, hcomplete, Option.bind_some,
    processAnySubMachines, writeCEventXRef, crossReference, List.zipIdx_map_fst]
  split_ifs with hlist
  · refine ⟨ih₃, rfl, ?_⟩
    simpa [hlist, FsmLang.iterateSubMachineList] using hP₃
  · obtain ⟨ih₄, hsub, hpmi₄, hP₄⟩ := h.iterateSubMachineList [] top.machineList 0 ih₃ _
      (fun k c hc => by simpa [Machine.sub?_cons] using hc) hP₃
    obtain ⟨ih₅, hnumAll, -, hP₅⟩ := hlabel _ ih₄ .numAllEvents (hpmi₄.trans hpmi₃) hP₄
    refine ⟨ih₅, ?_, by simpa [List.append_assoc] using hP₅⟩
    rw [hsub]
    exact hnumAll

/-- The function for the states of a machine keeps a property of the machines that have been
written. -/
structure KeepsMachines (top : Machine) (w : XrefWriter)
    (Q : List (List ℕ × Machine) → IteratorHelper → Prop) : Prop where
  machine : ∀ done ih m, top.sub? ih.pmi = some m → ih.counter0 = some 0 → Q done ih →
    ∃ ih', w.machineWriter m ih = some ih' ∧ Q (done ++ [(ih.pmi, m)]) ih'
  helper : ∀ done ih path counter0, Q done ih →
    Q done { ih with pmi := path, counter0 := counter0 }

mutual

/-- The states of a sub-machine and of all below it. -/
lemma KeepsMachines.iterateSubMachinesState (h : KeepsMachines top w Q) (path : List ℕ) :
    ∀ (m : Machine) (ih : IteratorHelper) (done : List (List ℕ × Machine)),
      top.sub? path = some m → Q done ih →
        ∃ ih', iterateSubMachinesState w path m ih = some ih' ∧ Q (done ++ m.printOrder path) ih'
  | .mk info ms, ih, done, hm, hQ => by
    obtain ⟨ih₁, hmachine, hQ₁⟩ :=
      h.machine done { ih with pmi := path, counter0 := some 0 } _ hm rfl (h.helper _ _ _ _ hQ)
    obtain ⟨ih₂, hlist, hQ₂⟩ := h.iterateSubMachineListState path ms 0 ih₁ _
      (fun k c hc => by rw [Machine.sub?_append, hm]; simpa [Machine.sub?_cons] using hc) hQ₁
    refine ⟨{ ih₂ with pmi := ih.pmi, counter0 := none }, ?_, h.helper _ _ _ _ ?_⟩
    · rw [Xref.iterateSubMachinesState, hmachine, Option.bind_some, hlist, Option.map_some]
    · simpa [Machine.printOrder, List.append_assoc] using hQ₂

/-- The same for a list of sub-machines. -/
lemma KeepsMachines.iterateSubMachineListState (h : KeepsMachines top w Q) (path : List ℕ) :
    ∀ (ms : List Machine) (i : ℕ) (ih : IteratorHelper) (done : List (List ℕ × Machine)),
      (∀ k c, ms[k]? = some c → top.sub? (path ++ [i + k]) = some c) → Q done ih →
        ∃ ih', iterateSubMachineListState w path i ms ih = some ih' ∧
          Q (done ++ printOrderList path i ms) ih'
  | [], i, ih, done, _, hQ => ⟨ih, rfl, by simpa [printOrderList] using hQ⟩
  | m :: ms, i, ih, done, hsub, hQ => by
    obtain ⟨ih₁, hfirst, hQ₁⟩ :=
      h.iterateSubMachinesState (path ++ [i]) m ih done (hsub 0 m rfl) hQ
    obtain ⟨ih₂, hrest, hQ₂⟩ := h.iterateSubMachineListState path ms (i + 1) ih₁ _
      (fun k c hc => by
        have hk := hsub (k + 1) c (by simpa using hc)
        rwa [show i + (k + 1) = i + 1 + k by omega] at hk) hQ₁
    refine ⟨ih₂, ?_, ?_⟩
    · rw [Xref.iterateSubMachineListState, hfirst, Option.bind_some, hrest]
    · simpa [printOrderList, List.append_assoc] using hQ₂

end

/-- **All entries for states.** -/
theorem KeepsMachines.writeStates (h : KeepsMachines top w Q) {ih : IteratorHelper}
    (hpmi : ih.pmi = []) (hcounter : ih.counter0 = some 0) (hQ : Q [] ih) :
    ∃ ih', writeStates w top ih = some ih' ∧ Q (top.printOrder []) ih' := by
  obtain ⟨ih₁, hmachine, hQ₁⟩ := h.machine [] ih top (by rw [hpmi]; rfl) hcounter hQ
  obtain ⟨ih₂, hlist, hQ₂⟩ := h.iterateSubMachineListState [] top.machineList 0 ih₁ _
    (fun k c hc => by simpa [Machine.sub?_cons] using hc) hQ₁
  refine ⟨ih₂, ?_, ?_⟩
  · rw [Xref.writeStates, hmachine, Option.bind_some, hlist]
  · rw [hpmi] at hQ₂
    simpa [Machine.printOrder_eq] using hQ₂

end Walks

/-! ## Words -/

/-- Words joined by an underscore are words. -/
lemma IsWord.joined {u v : String} (hu : IsWord u) (hv : IsWord v) : IsWord (joined u v) := by
  intro c hc
  rw [toList_joined, List.mem_append, List.mem_cons] at hc
  rcases hc with hc | hc | hc
  · exact hu c hc
  · exact .inr hc
  · exact hv c hc

/-- The digits of a number are a word. -/
lemma isWord_repr (n : ℕ) : IsWord (Nat.repr n) := by
  intro c hc
  have hdigit : c.isDigit = true :=
    Nat.isDigit_of_mem_toDigits (b := 10) (by decide) (by decide) (by simpa [Nat.repr] using hc)
  exact .inl (by simp [Char.isAlphanum, hdigit])

/-- The characters of words are not those that end strings or tags. -/
lemma IsWord.ne {s : String} (h : IsWord s) {c : Char} (hc : c ∈ s.toList) {d : Char}
    (hd : d.isAlphanum = false ∧ d ≠ '_') : c ≠ d := by
  rintro rfl
  rcases h c hc with hchar | hchar
  · rw [hd.1] at hchar
    cases hchar
  · exact hd.2 hchar

/-- Other characters do not occur in words. -/
lemma IsWord.notMem {s : String} (h : IsWord s) {d : Char}
    (hd : d.isAlphanum = false ∧ d ≠ '_') : d ∉ s.toList := fun hmem => h.ne hmem hd rfl

/-- A word is plain text. -/
lemma IsWord.plain {s : String} (h : IsWord s) : IsPlainText s := by
  intro c hc
  refine ⟨h.ne hc (by decide), h.ne hc (by decide), ?_⟩
  rcases h c hc with hchar | rfl
  · -- an upper case letter, a lower case letter or a digit
    have hcases : (decide ('A'.val ≤ c.val ∧ c.val ≤ 'Z'.val) ||
        decide ('a'.val ≤ c.val) && decide (c.val ≤ 'z'.val) ||
        decide ('0'.val ≤ c.val) && decide (c.val ≤ '9'.val)) = true := hchar
    simp only [Bool.or_eq_true, Bool.and_eq_true, decide_eq_true_eq,
      UInt32.le_iff_toNat_le] at hcases
    rw [Char.le_def, UInt32.le_iff_toNat_le]
    have hupper : ' '.val.toNat ≤ 'A'.val.toNat := by decide
    have hlower : ' '.val.toNat ≤ 'a'.val.toNat := by decide
    have hdigit : ' '.val.toNat ≤ '0'.val.toNat := by decide
    omega
  · decide

/-- The ancestry of a machine is a word if the machines' names are. -/
lemma isWord_printAncestry {top : Machine}
    (hwords : ∀ path m, top.sub? path = some m → IsWord m.info.name) (path : List ℕ) :
    IsWord (printAncestry top path) := by
  have hempty : IsWord "" := by decide
  induction path generalizing top with
  | nil => exact hwords [] top rfl
  | cons k path ih =>
    refine (hwords [] top rfl).joined ?_
    cases hc : top.machineList[k]? with
    | none => exact hempty
    | some c => exact ih fun q m hm => hwords (k :: q) m (by rw [Machine.sub?_cons, hc]; exact hm)

namespace NamedTree

variable (T : NamedTree) {path : List ℕ} {m : Machine}

/-- The text of a label is a word. -/
lemma isWord_labelText (hm : T.top.sub? path = some m) (l : Label) : IsWord (m.labelText l) := by
  cases l with
  | event i =>
    cases he : m.eventList[i]? with
    | none => simp [Machine.labelText, he, IsWord]
    | some e =>
      simpa [Machine.labelText, he] using T.eventWord path m hm e (List.mem_of_getElem? he)
  | firstEvent => exact (by decide : IsWord "firstEvent")
  | noEvent => exact (by decide : IsWord "noEvent")
  | lastEvent => exact (by decide : IsWord "lastEvent")
  | numEvents => exact (by decide : IsWord "numEvents")
  | numAllEvents => exact (by decide : IsWord "numAllEvents")

/-- A name with its ancestry is a word. -/
lemma isWord_printNameWithAncestry (path : List ℕ) {name : String} (hname : IsWord name) :
    IsWord (printNameWithAncestry name T.top path) :=
  (isWord_printAncestry T.machineWord path).joined hname

/-- The name of an enumerator is a word. -/
lemma isWord_enumeratorName (x : Enumerator) : IsWord (enumeratorName T.top x) := by
  refine T.isWord_printNameWithAncestry x.path ?_
  cases hm : T.top.sub? x.path with
  | none => exact (by decide : IsWord "")
  | some m => exact T.isWord_labelText hm x.label

end NamedTree

end Xref

end FsmLang
