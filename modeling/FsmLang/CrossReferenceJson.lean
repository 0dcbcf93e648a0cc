import Mathlib.Tactic
import FsmLang.CrossReferenceFiles
import FsmLang.Documents.Json

set_option relaxedAutoImplicit false
set_option autoImplicit false

/-!
# The JSON cross-reference file

The entries for events are the elements of one array, for which the flag for the first entry is kept
through all machines. The machines with their states are the elements of another. The states of a
machine are an array within, for which the flag is raised again; that it is down afterwards, as the
next machine needs it, is due to the states that every machine has.

## Main definitions

* `JsonAt` — the elements of an array have been written, up to some element.

## Main results

* `JsonAt.printXrefEntryJson`, `JsonAt.printMachineStatesJson` — one more element.
* `exists_writeCEventXRefJSON` — the file is a JSON text with the entries.
-/

namespace FsmLang

open Documents

namespace Xref

/-! ## Elements -/

/-- The text of an entry. -/
private lemma isElement_entry {name : String} (hname : IsWord name) (n : ℕ) :
    IsElement ("\x7b \"index\": \"" ++ Nat.repr (n % 2 ^ 32) ++ "\", \"name\": \"" ++ name ++
      "\" \x7d\n").toList (entryJson name n) := by
  have hindex : IsKey " \"index\"".toList "index" :=
    ⟨[' '], [], isSpace_blank, isSpace_nil, by decide, rfl⟩
  have hkey : IsKey " \"name\"".toList "name" :=
    ⟨[' '], [], isSpace_blank, isSpace_nil, by decide, rfl⟩
  have hnumber := (IsValue.string (isWord_repr (n % 2 ^ 32)).plain).element.space_append
    isSpace_blank
  have hvalue := ((IsValue.string hname.plain).element.space_append isSpace_blank).append_space
    isSpace_blank
  have hobject := IsValue.object (.cons hindex hnumber (.last hkey hvalue))
  have helement := hobject.element.append_space isSpace_newline
  simpa [quoted, entryJson] using helement

/-- What has been written is the elements of an array, of which what is before is not a part. -/
def JsonAt (before : List Char) (vs : List Json) (ih : IteratorHelper) : Prop :=
  ∃ inside, ih.out = before ++ inside ∧ Listing ih.first inside vs

section JsonSteps

variable {T : NamedTree} {before : List Char} {vs : List Json} {ih : IteratorHelper}

/-- An entry. -/
lemma JsonAt.printXrefEntryJson (h : JsonAt before vs ih) {n : ℕ} (hn : ih.counter0 = some n)
    {name : String} (hname : IsWord (printNameWithAncestry name T.top ih.pmi)) :
    ∃ ih', Xref.printXrefEntryJson T.top name ih = some ih' ∧ ih'.pmi = ih.pmi ∧
      ih'.counter0 = some (n + 1) ∧
        JsonAt before (vs ++ [entryJson (printNameWithAncestry name T.top ih.pmi) n]) ih' := by
  obtain ⟨inside, hout, hlisting⟩ := h
  have hfirst : IsSpace [' ', ' '] := by simp [IsSpace]
  have hmore := hlisting.element (isElement_entry hname n) hfirst isSpace_blank
  rw [Xref.printXrefEntryJson, hn, Option.map_some]
  refine ⟨_, rfl, rfl, rfl, _, ?_, hmore⟩
  rw [IteratorHelper.fprintf, hout, List.append_assoc]
  cases ih.first <;> simp

/-- The entries for some names. -/
private lemma JsonAt.foldlM_printXrefEntryJson (h : JsonAt before vs ih) {n : ℕ}
    (hn : ih.counter0 = some n) {m : Machine} (hm : T.top.sub? ih.pmi = some m)
    (ss : List State) (hss : ∀ s ∈ ss, IsWord s.name) :
    ∃ ih', ss.foldlM (fun ih s => Xref.printXrefEntryJson T.top s.name ih) ih = some ih' ∧
      ih'.pmi = ih.pmi ∧ JsonAt before (vs ++ (ss.zipIdx n).map fun s =>
        entryJson (printNameWithAncestry s.1.name T.top ih.pmi) s.2) ih' := by
  induction ss generalizing vs ih n with
  | nil => exact ⟨ih, rfl, rfl, by simpa using h⟩
  | cons s ss hrest =>
    have hname := T.isWord_printNameWithAncestry ih.pmi (hss s List.mem_cons_self)
    obtain ⟨ih₁, hentry, hpmi, hn₁, h₁⟩ := h.printXrefEntryJson hn hname
    obtain ⟨ih₂, hfold, hpmi₂, h₂⟩ := hrest h₁ hn₁ (hpmi.symm ▸ hm)
      fun t ht => hss t (List.mem_cons_of_mem s ht)
    refine ⟨ih₂, ?_, hpmi₂.trans hpmi, ?_⟩
    · rw [List.foldlM_cons, hentry]
      exact hfold
    · rw [hpmi] at h₂
      simpa [List.zipIdx_cons] using h₂

end JsonSteps

/-- The text of a machine with its states. -/
private lemma isElement_machine {ancestry : String} (hword : IsWord ancestry) {inside : List Char}
    {vs : List Json} (h : IsElements inside vs) :
    IsElement ((" \x7b\n \"name\": \"" ++ ancestry ++ "\", \"states\" :[").toList ++ inside ++
      "  ]\n  \x7d\n".toList) (.object [("name", .string ancestry), ("states", .array vs)]) := by
  have hindent : IsSpace ['\n', ' ', ' '] := by simp [IsSpace]
  have hname : IsKey "\n \"name\"".toList "name" :=
    ⟨['\n', ' '], [], isSpace_newline.append isSpace_blank, isSpace_nil, by decide, rfl⟩
  have hstates : IsKey " \"states\" ".toList "states" :=
    ⟨[' '], [' '], isSpace_blank, isSpace_blank, by decide, rfl⟩
  have hvalue := (IsValue.string hword.plain).element.space_append isSpace_blank
  have hspaces : IsSpace [' ', ' '] := by simp [IsSpace]
  have harray := (IsValue.array (h.append_space hspaces)).element.append_space hindent
  have hobject := IsValue.object (.cons hname hvalue (.last hstates harray))
  have helement := (hobject.element.space_append isSpace_blank).append_space isSpace_newline
  simpa [quoted] using helement

/-- A machine with its states. They are an array of their own, which ends with the flag for the
first entry down, as there is a state. -/
lemma JsonAt.printMachineStatesJson {T : NamedTree} {before : List Char} {vs : List Json}
    {ih : IteratorHelper} (h : JsonAt before vs ih) (hn : ih.counter0 = some 0) {m : Machine}
    (hm : T.top.sub? ih.pmi = some m) :
    ∃ ih', Xref.printMachineStatesJson T.top m ih = some ih' ∧
      JsonAt before (vs ++ [machineJson T.top (ih.pmi, m)]) ih' := by
  obtain ⟨inside, hout, hlisting⟩ := h
  have hopen : JsonAt (ih.out ++ ((if ih.first then " " else ",") ++ " \x7b\n \"name\": \"" ++
      printAncestry T.top ih.pmi ++ "\", \"states\" :[").toList) []
      { ih.fprintf ((if ih.first then " " else ",") ++ " \x7b\n \"name\": \"" ++
        printAncestry T.top ih.pmi ++ "\", \"states\" :[\n") with first := true } :=
    ⟨['\n'], by simp [IteratorHelper.fprintf], .nil isSpace_newline⟩
  obtain ⟨ih₁, hfold, -, inside₁, hout₁, hlisting₁⟩ := hopen.foldlM_printXrefEntryJson hn hm
    m.stateList (T.stateWord _ m hm)
  have hstates : m.stateList ≠ [] := (m.accepted_iff.mp (T.accepted.sub? hm)).2.1
  obtain ⟨hfirst, helements⟩ := hlisting₁.isElements (by simpa using hstates)
  have hmore := hlisting.element
    (isElement_machine (isWord_printAncestry T.machineWord ih.pmi) helements)
    isSpace_blank isSpace_nil
  rw [← hfirst] at hmore
  refine ⟨ih₁.fprintf "  ]\n  \x7d\n", ?_, _, ?_, hmore⟩
  · rw [Xref.printMachineStatesJson, hfold, Option.map_some]
  · rw [IteratorHelper.fprintf, hout₁, hout]
    cases ih.first <;> simp

/-! ## The file -/

section JsonFile

variable (T : NamedTree) (before : List Char)

/-- A machine with its states. -/
private lemma keepsMachines_json : KeepsMachines T.top (jsonWriter T.top)
    fun done ih => JsonAt before (done.map (machineJson T.top)) ih where
  machine := by
    intro done ih m hm hn h
    rw [List.map_append]
    exact h.printMachineStatesJson hn hm
  helper := fun _ _ _ _ h => h

/-- An entry for an event. -/
private lemma keepsEntries_json : KeepsEntries T.top (jsonWriter T.top)
    fun es ih => ih.counter0 = some es.length ∧ JsonAt before
      (es.zipIdx.map fun x => entryJson (enumeratorName T.top x.1) x.2) ih where
  entry := by
    rintro es ih m l hm ⟨hn, h⟩
    have hname := T.isWord_printNameWithAncestry ih.pmi (T.isWord_labelText hm l)
    obtain ⟨ih', hentry, hpmi, hn', h'⟩ := h.printXrefEntryJson hn hname
    refine ⟨ih', hentry, hpmi, by simpa using hn', ?_⟩
    have hevent : enumeratorName T.top ⟨ih.pmi, l⟩ =
        printNameWithAncestry (m.labelText l) T.top ih.pmi := enumeratorName_mk hm l
    rw [List.zipIdx_append, List.map_append]
    simpa [hevent] using h'
  pmi := fun _ _ _ h => h

/-- The part of the JSON file for the events, up to the end of the array. -/
private lemma exists_writeEvents_json : ∃ ih' inside,
    writeEvents (jsonWriter T.top) T.top (IteratorHelper.fprintf ⟨[], true, some 0, "", []⟩
      "\x7b\n\"event_xrefs\":[\n") = some ih' ∧
      ih'.out = "\x7b\n\"event_xrefs\":[".toList ++ inside ∧ IsElements inside
        ((writeCEventXRef T.top).map fun x => entryJson (enumeratorName T.top x.1) x.2) := by
  have hkeeps := keepsEntries_json T "\x7b\n\"event_xrefs\":[".toList
  have hne : writeCEventXRef T.top ≠ [] := by
    simp [writeCEventXRef, crossReference]
  have hopen : JsonAt "\x7b\n\"event_xrefs\":[".toList []
      (IteratorHelper.fprintf ⟨[], true, some 0, "", []⟩ "\x7b\n\"event_xrefs\":[\n") :=
    ⟨['\n'], by simp [IteratorHelper.fprintf], .nil isSpace_newline⟩
  obtain ⟨ih', hwrite, -, inside, hout, hlisting⟩ := hkeeps.writeEvents rfl ⟨rfl, hopen⟩
  rw [zipIdx_writeCEventXRef] at hlisting
  exact ⟨ih', inside, hwrite, hout, (hlisting.isElements (by simpa using hne)).2⟩

/-- The part of the JSON file for the states. -/
private lemma exists_writeCStateXRefJSON (out : List Char) : ∃ inside,
    writeCStateXRefJSON T.top out =
      some (out ++ "\n, \"state_xrefs\": [".toList ++ inside ++ "\n]\n".toList) ∧
      IsElements inside ((T.top.printOrder []).map (machineJson T.top)) := by
  have hkeeps := keepsMachines_json T (out ++ "\n, \"state_xrefs\": [".toList)
  have hne : T.top.printOrder [] ≠ [] := by simp [Machine.printOrder_eq]
  have hopen : JsonAt (out ++ "\n, \"state_xrefs\": [".toList) []
      (IteratorHelper.fprintf ⟨[], true, some 0, "", out⟩ "\n, \"state_xrefs\": [\n") :=
    ⟨['\n'], by simp [IteratorHelper.fprintf], .nil isSpace_newline⟩
  obtain ⟨ih', hwrite, inside, hout, hlisting⟩ := hkeeps.writeStates rfl rfl hopen
  refine ⟨inside, ?_, (hlisting.isElements (by simpa using hne)).2⟩
  rw [writeCStateXRefJSON, hwrite, Option.map_some, IteratorHelper.fprintf, hout]

/-- **The JSON file** is a JSON text with the entries. -/
theorem exists_writeCEventXRefJSON (includeStateCrossRefs : Bool) : ∃ out,
    writeCEventXRefJSON T.top includeStateCrossRefs = some out ∧
      IsElement out (xrefsJson T.top includeStateCrossRefs) := by
  obtain ⟨ih', inside, hwrite, hout, helements⟩ := exists_writeEvents_json T
  have hkey : IsKey "\n\"event_xrefs\"".toList "event_xrefs" :=
    ⟨['\n'], [], isSpace_newline, isSpace_nil, by decide, rfl⟩
  have harray := (IsValue.array helements).element.append_space isSpace_newline
  rw [writeCEventXRefJSON, hwrite, Option.bind_some]
  cases includeStateCrossRefs with
  | false =>
    have helement := (IsValue.object (.last hkey harray)).element.append_space isSpace_newline
    refine ⟨_, rfl, ?_⟩
    simpa [xrefsJson, IteratorHelper.fprintf, hout] using helement
  | true =>
    obtain ⟨inside', hstates, helements'⟩ :=
      exists_writeCStateXRefJSON T (ih'.fprintf "]\n").out
    have hkey' : IsKey " \"state_xrefs\"".toList "state_xrefs" :=
      ⟨[' '], [], isSpace_blank, isSpace_nil, by decide, rfl⟩
    have harray' := (((IsValue.array (helements'.append_space isSpace_newline)).element).space_append
      isSpace_blank).append_space isSpace_newline
    have helement := (IsValue.object (.cons hkey (harray.append_space isSpace_newline)
      (.last hkey' harray'))).element.append_space isSpace_newline
    refine ⟨_, congrArg (Option.map (· ++ "\x7d\n".toList)) hstates, ?_⟩
    simpa [xrefsJson, IteratorHelper.fprintf, hout] using helement

end JsonFile

end Xref

end FsmLang
