import Mathlib.Logic.Function.Basic
import Mathlib.Tactic
import FsmLang.CSemantics.Rings

set_option relaxedAutoImplicit false
set_option autoImplicit false

/-!
# The list module

Lists of members are doubly linked. The record of a list holds the number of its elements and
pointers to the first and to the last one; an element holds a pointer to its member, pointers to
its neighbours, and its ordinal. The operations edit these fields in place.

The memory is kept as one function for each field, from the addresses of the records. An address
is the number of the call of `calloc` that returned it, and `granted` tells which calls return
memory. Following a null pointer is `none`, and so is a loop that has not ended after `fuel`
passes.

## Main definitions

* `Memory` — the records of lists and elements.
* `iterateList`, `reverseIterateList` — the two loops.
* `addToList`, `addToListOrdered`, `addUniqueToList`, `moveList`, `moveListUnique`, `copyList` with
  its variants, `removeFromList`, `removeNthListMember` — the operations.
-/

namespace FsmLang

open CSemantics

/-! ## Memory -/

/-- What a callback sees of an element. -/
structure ListElement (μ : Type*) where
  mbr : Option μ
  next : Option ℕ
  prev : Option ℕ
  ordinal : ℕ
  deriving DecidableEq, Repr

/-- The fields of all elements and of all lists, and the number of calls of `calloc` so far. A
member is a pointer, which may be null. -/
structure Memory (μ : Type*) where
  mbr : ℕ → Option μ
  next : ℕ → Option ℕ
  prev : ℕ → Option ℕ
  ordinal : ℕ → ℕ
  count : ℕ → ℕ
  head : ℕ → Option ℕ
  tail : ℕ → Option ℕ
  callocs : ℕ

/-- The result of comparing an element with a member. -/
inductive Order where
  | lessThan
  | equalTo
  | greaterThan
  deriving DecidableEq, Repr

namespace Memory

variable {μ δ : Type*} [DecidableEq μ] (granted : ℕ → Bool) (fuel : ℕ) (m : Memory μ)

/-- All lists are empty (`init_list`). -/
def empty : Memory μ where
  mbr := fun _ => none
  next := fun _ => none
  prev := fun _ => none
  ordinal := fun _ => 0
  count := fun _ => 0
  head := fun _ => none
  tail := fun _ => none
  callocs := 0

/-- The element at an address. -/
def element (a : ℕ) : ListElement μ := ⟨m.mbr a, m.next a, m.prev a, m.ordinal a⟩

/-- A new element, cleared, or a null pointer. -/
def calloc : Memory μ × Option ℕ :=
  if granted m.callocs then
    ({ m with
      mbr := Function.update m.mbr m.callocs none
      next := Function.update m.next m.callocs none
      prev := Function.update m.prev m.callocs none
      ordinal := Function.update m.ordinal m.callocs 0
      callocs := m.callocs + 1 }, some m.callocs)
  else ({ m with callocs := m.callocs + 1 }, none)

/-! ## Loops -/

variable {m}

/-- Loop from the head of a list; the callback may change the memory and the data it is given. -/
def iterateList (plist : Option ℕ) (action : Memory μ × δ → ℕ → Option ((Memory μ × δ) × Bool))
    (s : Memory μ × δ) : Option ((Memory μ × δ) × Option ℕ) :=
  match plist with
  | none => some (s, none)
  | some l => walk (fun s a => s.1.next a) action fuel s (s.1.head l)

/-- Loop from the tail of a list. -/
def reverseIterateList (plist : Option ℕ)
    (action : Memory μ × δ → ℕ → Option ((Memory μ × δ) × Bool)) (s : Memory μ × δ) :
    Option ((Memory μ × δ) × Option ℕ) :=
  match plist with
  | none => some (s, none)
  | some l => walk (fun s a => s.1.prev a) action fuel s (s.1.tail l)

/-- The elements that a loop comes to. -/
def visits (m : Memory μ) (plist : Option ℕ) : Option (List ℕ) :=
  (iterateList fuel plist (fun s a => some ((s.1, s.2 ++ [a]), false)) (m, [])).map fun r => r.1.2

/-- The elements that a loop from the tail comes to. -/
def reverseVisits (m : Memory μ) (plist : Option ℕ) : Option (List ℕ) :=
  (reverseIterateList fuel plist (fun s a => some ((s.1, s.2 ++ [a]), false)) (m, [])).map
    fun r => r.1.2

/-- A loop whose callback only looks at the elements, and ends it where the test holds. -/
def findElement (m : Memory μ) (plist : Option ℕ) (test : ListElement μ → Bool) :
    Option (Option ℕ) :=
  (iterateList fuel plist (fun s a => some (s, test (s.1.element a))) (m, ())).map Prod.snd

/-- The callback `match_member`. -/
def matchMember (mbr : Option μ) (pelem : ListElement μ) : Bool := decide (pelem.mbr = mbr)

/-- The loop with the callback `update_ordinal`. -/
def updateOrdinals (m : Memory μ) (plist : Option ℕ) (start : ℕ) : Option (Memory μ) :=
  (iterateList fuel plist (fun s a => some (({ s.1 with
    ordinal := Function.update s.1.ordinal a (s.1.ordinal a + s.2) }, s.2), false))
    (m, start)).map fun r => r.1.1

/-- The loop with the callback `reset_ordinals`. -/
def resetOrdinals (m : Memory μ) (plist : Option ℕ) : Option (Memory μ) :=
  (iterateList fuel plist (fun s a => some (({ s.1 with
    ordinal := Function.update s.1.ordinal a s.2 }, s.2 + 1), false)) (m, 0)).map fun r => r.1.1

/-! ## Adding -/

/-- Add an element with a member at the end. -/
def addToList (m : Memory μ) (plist : Option ℕ) (pmbr : Option μ) :
    Option (Memory μ × Option ℕ) :=
  match plist with
  | none => some (m, none)
  | some l =>
    match m.calloc granted with
    | (m, none) => some (m, none)
    | (m, some pelem) =>
      let m := { m with
        mbr := Function.update m.mbr pelem pmbr
        ordinal := Function.update m.ordinal pelem (m.count l) }
      match m.head l with
      | none => some ({ m with
          head := Function.update m.head l (some pelem)
          tail := Function.update m.tail l (some pelem)
          prev := Function.update m.prev pelem none
          count := Function.update m.count l 1 }, some pelem)
      | some _ => (m.tail l).bind fun t => some ({ m with
          prev := Function.update m.prev pelem (some t)
          next := Function.update m.next t (some pelem)
          tail := Function.update m.tail l (some pelem)
          count := Function.update m.count l (m.count l + 1) }, some pelem)

/-- Add an element before the first one for which the order function gives `less_than`. -/
def addToListOrdered (m : Memory μ) (plist : Option ℕ) (pmbr : Option μ)
    (orderFn : ListElement μ → Option μ → Order) : Option (Memory μ × Option ℕ) :=
  match plist with
  | none => some (m, none)
  | some l =>
    (findElement fuel m plist fun pelem => decide (orderFn pelem pmbr = .lessThan)).bind
      fun pexisting =>
        match pexisting with
        | none => addToList granted m plist pmbr
        | some e =>
          match m.calloc granted with
          | (m, none) => some (m, none)
          | (m, some pnew) =>
            let m := { m with
              mbr := Function.update m.mbr pnew pmbr
              prev := Function.update m.prev pnew (m.prev e)
              next := Function.update m.next pnew (some e) }
            (if m.head l = some e then
                some { m with head := Function.update m.head l (some pnew) }
              else
                (m.prev e).map fun p => { m with next := Function.update m.next p (some pnew) }).bind
              fun m =>
                (resetOrdinals fuel { m with
                  prev := Function.update m.prev e (some pnew)
                  count := Function.update m.count l (m.count l + 1) } plist).map
                  fun m => (m, some pnew)

/-- Add a member unless an element passes the test. -/
def addUniqueToListWithTest (m : Memory μ) (plist : Option ℕ) (pmbr : Option μ)
    (testFn : Option μ → ListElement μ → Bool) : Option (Memory μ × Option ℕ) :=
  (findElement fuel m plist (testFn pmbr)).bind fun pelem =>
    match pelem with
    | none => addToList granted m plist pmbr
    | some a => some (m, some a)

/-- Add a member that is not in the list. -/
def addUniqueToList (m : Memory μ) (plist : Option ℕ) (pmbr : Option μ) :
    Option (Memory μ × Option ℕ) :=
  addUniqueToListWithTest granted fuel m plist pmbr matchMember

/-! ## Moving -/

/-- Move the elements of a list to the end of another one, with the list that is returned. -/
def moveList (m : Memory μ) (dest src : Option ℕ) : Option (Memory μ × Option ℕ) :=
  match dest with
  | none => some (m, src)
  | some d =>
    (match m.tail d with
      | some t =>
        (updateOrdinals fuel m src (m.count d)).bind fun m =>
          src.map fun s => { m with next := Function.update m.next t (m.head s) }
      | none => src.map fun s => { m with head := Function.update m.head d (m.head s) }).bind fun m =>
        src.map fun s =>
          let m := { m with
            tail := Function.update m.tail d (m.tail s)
            count := Function.update m.count d (m.count d + m.count s) }
          ({ m with
            count := Function.update m.count s 0
            head := Function.update m.head s none
            tail := Function.update m.tail s none }, some d)

/-- A loop over the elements of a list, with a callback that adds them to another list. -/
def copyLoop (m : Memory μ) (dest src : Option ℕ)
    (copier : Memory μ → Option ℕ → ℕ → Option (Memory μ)) : Option (Memory μ) :=
  (iterateList fuel src (fun s a => (copier s.1 dest a).map fun m => ((m, s.2), false))
    (m, ())).map fun r => r.1.1

/-- The callback `unique_list_mover`. -/
def uniqueListMover (testFn : Option μ → ListElement μ → Bool) (m : Memory μ) (dest : Option ℕ)
    (a : ℕ) : Option (Memory μ) :=
  (addUniqueToListWithTest granted fuel m dest (m.mbr a) testFn).map Prod.fst

/-- Add the members of a list to another one unless they are in there. -/
def moveListUniqueWithTest (m : Memory μ) (dest src : Option ℕ)
    (testFn : Option μ → ListElement μ → Bool) : Option (Memory μ × Option ℕ) :=
  if dest.isSome then
    (copyLoop fuel m dest src (uniqueListMover granted fuel testFn)).map fun m => (m, dest)
  else some (m, src)

/-- The same, members being compared. -/
def moveListUnique (m : Memory μ) (dest src : Option ℕ) : Option (Memory μ × Option ℕ) :=
  moveListUniqueWithTest granted fuel m dest src matchMember

/-! ## Copying -/

/-- The callback `list_copier`. -/
def listCopier (m : Memory μ) (dest : Option ℕ) (a : ℕ) : Option (Memory μ) :=
  (addToList granted m dest (m.mbr a)).map Prod.fst

/-- The callback `list_copier_unique`. -/
def listCopierUnique (m : Memory μ) (dest : Option ℕ) (a : ℕ) : Option (Memory μ) :=
  (addUniqueToList granted fuel m dest (m.mbr a)).map Prod.fst

/-- The callback `list_copier_unique_with_exception`. -/
def listCopierUniqueWithException (exception : Option μ) (m : Memory μ) (dest : Option ℕ)
    (a : ℕ) : Option (Memory μ) :=
  if m.mbr a ≠ exception then (addUniqueToList granted fuel m dest (m.mbr a)).map Prod.fst
  else some m

/-- The callback `list_copier_with_filter`. -/
def listCopierWithFilter (filterFn : ListElement μ → Bool) (m : Memory μ) (dest : Option ℕ)
    (a : ℕ) : Option (Memory μ) :=
  if filterFn (m.element a) then (addToList granted m dest (m.mbr a)).map Prod.fst else some m

/-- What the copying functions do with their callbacks. -/
def copyListWith (m : Memory μ) (dest src : Option ℕ)
    (copier : Memory μ → Option ℕ → ℕ → Option (Memory μ)) : Option (Memory μ × Option ℕ) :=
  (if dest.isSome && src.isSome then copyLoop fuel m dest src copier else some m).map fun m =>
    (m, if dest.isSome then dest else src)

/-- Add the members of a list to the end of another one. -/
def copyList (m : Memory μ) (dest src : Option ℕ) : Option (Memory μ × Option ℕ) :=
  copyListWith fuel m dest src (listCopier granted)

/-- Add those members that are not in there. -/
def copyListUnique (m : Memory μ) (dest src : Option ℕ) : Option (Memory μ × Option ℕ) :=
  copyListWith fuel m dest src (listCopierUnique granted fuel)

/-- Add those members that are not in there and are not the exception. -/
def copyListUniqueWithException (m : Memory μ) (dest src : Option ℕ) (exception : Option μ) :
    Option (Memory μ × Option ℕ) :=
  copyListWith fuel m dest src (listCopierUniqueWithException granted fuel exception)

/-- Add the members of those elements that pass the filter. -/
def copyListFiltered (m : Memory μ) (dest src : Option ℕ) (filterFn : ListElement μ → Bool) :
    Option (Memory μ × Option ℕ) :=
  copyListWith fuel m dest src (listCopierWithFilter granted filterFn)

/-! ## Removing -/

/-- The member of the element with an ordinal. -/
def findNthListMember (m : Memory μ) (plist : Option ℕ) (target : ℕ) : Option (Option μ) :=
  (findElement fuel m plist fun pelem => decide (pelem.ordinal = target)).map fun pelem =>
    pelem.bind m.mbr

/-- Unlink an element: the first one, the last one, or one between two others. -/
def unlink (m : Memory μ) (l e : ℕ) : Option (Memory μ) :=
  if some e = m.head l then
    (if (m.next e).isSome then m.next e else m.tail l).map fun h => { m with
      head := Function.update m.head l (some h)
      prev := Function.update m.prev h none }
  else if some e = m.tail l then
    (m.prev e).map fun p => { m with
      tail := Function.update m.tail l (some p)
      next := Function.update m.next p none }
  else
    (m.prev e).bind fun p => (m.next e).map fun n => { m with
      next := Function.update m.next p (some n)
      prev := Function.update m.prev n (some p) }

/-- Remove the first element with a member. -/
def removeFromList (m : Memory μ) (plist : Option ℕ) (mbr : Option μ) : Option (Memory μ) :=
  match plist with
  | none => some m
  | some l =>
    (findElement fuel m plist (matchMember mbr)).bind fun pelem =>
      match pelem with
      | none => some m
      | some e =>
        (unlink m l e).bind fun m =>
          let m := { m with
            count := Function.update m.count l (m.count l - 1)
            next := Function.update m.next e none }
          resetOrdinals fuel (if m.count l = 0 then { m with
            head := Function.update m.head l none
            tail := Function.update m.tail l none } else m) plist

/-- Remove the element that `find_nth_list_member` finds, by its member. -/
def removeNthListMember (m : Memory μ) (plist : Option ℕ) (target : ℕ) : Option (Memory μ) :=
  (findNthListMember fuel m plist target).bind fun mbr =>
    if mbr.isSome then removeFromList fuel m plist mbr else some m

/-! ## Lists in memory -/

/-- The list `l` consists of the elements `as`. -/
structure Holds (m : Memory μ) (l : ℕ) (as : List ℕ) : Prop where
  ring : LinkRing (sentinel (m.head l) m.next) (sentinel (m.tail l) m.prev) none (as.map some)
  count : m.count l = as.length
  ordinals : as.map m.ordinal = List.range as.length
  allocated : ∀ a ∈ as, a < m.callocs

variable {m m' m'' : Memory μ} {l : ℕ} {as as' as'' : List ℕ}

omit [DecidableEq μ] in
/-- An element is in a list once. -/
lemma Holds.nodup (h : m.Holds l as) : as.Nodup := by
  have := h.ordinals ▸ List.nodup_range
  exact this.of_map

omit [DecidableEq μ] in
/-- A list without elements. -/
lemma empty_holds (l : ℕ) : (empty : Memory μ).Holds l [] where
  ring := by
    simp only [LinkRing, List.map_nil, List.nil_append, links_cons_cons, links_singleton, and_true]
    exact ⟨rfl, rfl⟩
  count := rfl
  ordinals := rfl
  allocated := by simp

/-- Nothing changes but the list `l`, the elements `as` and elements that are new. -/
structure Touches (m m' : Memory μ) (l : ℕ) (as : List ℕ) : Prop where
  others : ∀ l', l' ≠ l → m'.head l' = m.head l' ∧ m'.tail l' = m.tail l' ∧
    m'.count l' = m.count l'
  elements : ∀ a, a < m.callocs → a ∉ as →
    m'.next a = m.next a ∧ m'.prev a = m.prev a ∧ m'.ordinal a = m.ordinal a
  members : ∀ a, a < m.callocs → m'.mbr a = m.mbr a
  callocs : m.callocs ≤ m'.callocs

/-- The list `l` consists of the elements `as` before an operation and of `as'` after it, and
nothing else changes. -/
structure Edits (m m' : Memory μ) (l : ℕ) (as as' : List ℕ) : Prop extends Touches m m' l as where
  holds : m'.Holds l as'
  fresh : ∀ a ∈ as', a ∈ as ∨ m.callocs ≤ a

omit [DecidableEq μ] in
/-- Nothing is touched. -/
lemma Touches.refl (m : Memory μ) (l : ℕ) (as : List ℕ) : m.Touches m l as where
  others := fun _ _ => ⟨rfl, rfl, rfl⟩
  elements := fun _ _ _ => ⟨rfl, rfl, rfl⟩
  members := fun _ _ => rfl
  callocs := le_rfl

omit [DecidableEq μ] in
/-- A list that stays as it is. -/
lemma Edits.refl (h : m.Holds l as) : m.Edits m l as as :=
  ⟨.refl m l as, h, fun _ ha => .inl ha⟩

omit [DecidableEq μ] in
/-- A list that is edited twice is edited. -/
lemma Edits.trans (h : m.Edits m' l as as') (h' : m'.Edits m'' l as' as'') :
    m.Edits m'' l as as'' where
  holds := h'.holds
  others := by
    intro l' hl'
    obtain ⟨hhead, htail, hcount⟩ := h.others l' hl'
    obtain ⟨hhead', htail', hcount'⟩ := h'.others l' hl'
    exact ⟨hhead'.trans hhead, htail'.trans htail, hcount'.trans hcount⟩
  elements := by
    intro a ha hnot
    have hnot' : a ∉ as' := by
      intro hmem
      rcases h.fresh a hmem with hold | hnew
      · exact hnot hold
      · omega
    obtain ⟨hnext, hprev, hord⟩ := h.elements a ha hnot
    obtain ⟨hnext', hprev', hord'⟩ := h'.elements a (ha.trans_le h.callocs) hnot'
    exact ⟨hnext'.trans hnext, hprev'.trans hprev, hord'.trans hord⟩
  members := by
    intro a ha
    rw [h'.members a (ha.trans_le h.callocs), h.members a ha]
  fresh := by
    intro a ha
    rcases h'.fresh a ha with hold | hnew
    · exact h.fresh a hold
    · exact .inr (h.callocs.trans hnew)
  callocs := h.callocs.trans h'.callocs

omit [DecidableEq μ] in
/-- Lists depend on their own fields and those of their elements. -/
lemma Holds.congr (h : m.Holds l as) (hhead : m'.head l = m.head l) (htail : m'.tail l = m.tail l)
    (hcount : m'.count l = m.count l) (hcallocs : m.callocs ≤ m'.callocs)
    (helements : ∀ a ∈ as, m'.next a = m.next a ∧ m'.prev a = m.prev a ∧
      m'.ordinal a = m.ordinal a) : m'.Holds l as where
  ring := by
    refine h.ring.congr ?_ ?_
    · intro p hp
      rcases List.mem_cons.mp hp with rfl | hp
      · exact hhead
      · obtain ⟨a, ha, rfl⟩ := List.mem_map.mp hp
        exact (helements a ha).1
    · intro p hp
      rcases List.mem_cons.mp hp with rfl | hp
      · exact htail
      · obtain ⟨a, ha, rfl⟩ := List.mem_map.mp hp
        exact (helements a ha).2.1
  count := hcount.trans h.count
  ordinals := by
    rw [← h.ordinals]
    exact List.map_congr_left fun a ha => (helements a ha).2.2
  allocated := fun a ha => (h.allocated a ha).trans_le hcallocs

omit [DecidableEq μ] in
/-- **Frame.** An operation on one list leaves the others as they are. -/
lemma Edits.frame (h : m.Edits m' l as as') {l' : ℕ} {bs : List ℕ} (hbs : m.Holds l' bs)
    (hne : l' ≠ l) (hdisjoint : as.Disjoint bs) : m'.Holds l' bs := by
  obtain ⟨hhead, htail, hcount⟩ := h.others l' hne
  refine hbs.congr hhead htail hcount h.callocs ?_
  intro a ha
  exact h.elements a (hbs.allocated a ha) fun hmem => hdisjoint hmem ha

omit [DecidableEq μ] in
/-- Elements keep their members. -/
lemma Touches.map_mbr (h : m.Touches m' l as) {bs : List ℕ} (hbs : ∀ b ∈ bs, b < m.callocs) :
    bs.map m'.mbr = bs.map m.mbr :=
  List.map_congr_left fun b hb => h.members b (hbs b hb)

omit [DecidableEq μ] in
/-- A call of `calloc` that fails changes nothing. -/
lemma Holds.edits_of_not_granted (h : m.Holds l as) :
    m.Edits { m with callocs := m.callocs + 1 } l as as where
  others := fun _ _ => ⟨rfl, rfl, rfl⟩
  elements := fun _ _ _ => ⟨rfl, rfl, rfl⟩
  members := fun _ _ => rfl
  callocs := Nat.le_succ _
  holds := h.congr rfl rfl rfl (Nat.le_succ _) fun _ _ => ⟨rfl, rfl, rfl⟩
  fresh := fun _ ha => .inl ha

omit [DecidableEq μ] in
/-- The link forward of an element. -/
lemma Holds.next_eq (h : m.Holds l as) {done rest : List ℕ} {a : ℕ}
    (has : as = done ++ a :: rest) : m.next a = rest.head? := by
  have hring := h.ring
  rw [has] at hring
  exact hring.next_some

omit [DecidableEq μ] in
/-- The link backward of an element. -/
lemma Holds.prev_eq (h : m.Holds l as) {done rest : List ℕ} {a : ℕ}
    (has : as = done ++ a :: rest) : m.prev a = done.getLast? := by
  have hring := h.ring
  rw [has] at hring
  exact hring.prev_some

/-! ### Loops -/

omit [DecidableEq μ] in
/-- A loop over a list whose elements stay in it comes to all of them. -/
lemma iterateList_of_invariant {I : List ℕ → Memory μ × δ → Prop}
    {action : Memory μ × δ → ℕ → Option ((Memory μ × δ) × Bool)}
    (hring : ∀ done s, I done s →
      LinkRing (sentinel (s.1.head l) s.1.next) (sentinel (s.1.tail l) s.1.prev) none (as.map some))
    (hstep : ∀ done a rest s, as = done ++ a :: rest → I done s →
      ∃ s', action s a = some (s', false) ∧ I (done ++ [a]) s')
    {s : Memory μ × δ} (hs : I [] s) (hfuel : as.length ≤ fuel) :
    ∃ s', iterateList fuel (some l) action s = some (s', none) ∧ I as s' := by
  rw [iterateList, (hring [] s hs).head_eq]
  refine walk_of_invariant (I := I) ?_ hs hfuel
  intro done a rest s has hI
  obtain ⟨s', hact, hI'⟩ := hstep done a rest s has hI
  have hring' := hring _ s' hI'
  rw [has] at hring'
  exact ⟨s', hact, hI', hring'.next_some⟩

omit [DecidableEq μ] in
/-- A loop that looks for an element. -/
lemma Holds.findElement_eq (h : m.Holds l as) (hfuel : as.length ≤ fuel)
    (test : ListElement μ → Bool) :
    findElement fuel m (some l) test = some (as.find? fun a => test (m.element a)) := by
  have hwalk : walk (fun (s : Memory μ × Unit) a => s.1.next a)
      (fun s a => some (s, test (s.1.element a))) fuel (m, ()) as.head? =
        some ((m, ()), as.find? fun a => test (m.element a)) := by
    refine walk_eq_find ?_ ?_ hfuel
    · intro a _
      rfl
    · intro done a rest has
      exact h.next_eq has
  rw [findElement, iterateList, h.ring.head_eq, hwalk]
  rfl

omit [DecidableEq μ] in
/-- Ordinals are counted from zero again. -/
lemma exists_resetOrdinals
    (hring : LinkRing (sentinel (m.head l) m.next) (sentinel (m.tail l) m.prev) none (as.map some))
    (hnd : as.Nodup) (hfuel : as.length ≤ fuel) :
    ∃ ordinal, resetOrdinals fuel m (some l) = some { m with ordinal := ordinal } ∧
      as.map ordinal = List.range as.length ∧ ∀ a ∉ as, ordinal a = m.ordinal a := by
  -- the elements that the loop has come to are numbered
  let I : List ℕ → Memory μ × ℕ → Prop := fun done s => s.2 = done.length ∧
    ∃ ordinal, s.1 = { m with ordinal := ordinal } ∧
      done.map ordinal = List.range done.length ∧ ∀ a ∉ done, ordinal a = m.ordinal a
  have hloop : ∃ s', iterateList fuel (some l) (fun s a => some (({ s.1 with
      ordinal := Function.update s.1.ordinal a s.2 }, s.2 + 1), false)) (m, 0) =
        some (s', none) ∧ I as s' := by
    refine iterateList_of_invariant fuel (I := I) ?_ ?_
      ⟨rfl, m.ordinal, rfl, rfl, fun _ _ => rfl⟩ hfuel
    · rintro done s ⟨-, ordinal, hs, -⟩
      rw [hs]
      exact hring
    · rintro done a rest s has ⟨hlen, ordinal, hs, hdone, hrest⟩
      have hnot : a ∉ done := by
        rw [has] at hnd
        intro hmem
        exact (List.nodup_append.mp hnd).2.2 a hmem a List.mem_cons_self rfl
      refine ⟨_, rfl, by simp [hlen], Function.update ordinal a s.2, by rw [hs], ?_, ?_⟩
      · have hsame : done.map (Function.update ordinal a s.2) = done.map ordinal :=
          List.map_congr_left fun b hb =>
            Function.update_of_ne (ne_of_mem_of_not_mem hb hnot) s.2 ordinal
        rw [List.map_append, hsame, hdone, List.length_append, List.length_singleton,
          List.range_succ, List.map_singleton, Function.update_self, hlen]
      · intro b hb
        rw [List.mem_append, List.mem_singleton, not_or] at hb
        rw [Function.update_of_ne hb.2]
        exact hrest b hb.1
  obtain ⟨s', hs', -, ordinal, hm, hord, hrest⟩ := hloop
  refine ⟨ordinal, ?_, hord, hrest⟩
  rw [resetOrdinals, hs', Option.map_some, hm]

end Memory

end FsmLang
