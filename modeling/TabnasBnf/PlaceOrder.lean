import TabnasBnf.EmitPlace

/-!
# The order of the entries of a rule

`specificity_permute` followed by `reorder_keyword_shadow` returns every entry once, unchanged, and
the guards made for the keywords (`placeOrder`). Of what it returns `MustPrecede` says which comes
first: the guards of a keyword ahead of every class entry that contests it, its one-token form behind
them; among the contested classes the longer lookahead; and of the entries no contest touches the
earlier.

* An alternate is told from an equal one by the entry it was placed for (`Sourced`).
* `slotSource` is the permutation: the entry that comes to stand in a slot.
* Each demand of `MustPrecede` is one between ranks (`rank_lt_of_mustPrecede`), and the result is
  sorted by rank.
-/

namespace TabnasBnf

section

variable (E : Emitter) (prod : Production) (entries : List Entry)

/-- An entry headed by a literal is contested by one headed by a character class, which descends
elsewhere. -/
def contests (e c : Entry) : Bool :=
  match e.o.s.head?.bind fun f =>
      if E.literalHeads.contains f then E.contest.literalHeadRangesOf f else none with
  | none => false
  | some fr => e.alt.isSome &&
      (match c.o.s.head? with
        | some g => if E.classHeads.contains g then E.contest.tokenRangesOf g else none
        | none => none).any fun cr => charRangesOverlap fr cr && !sameDescent e c

/-- The guards made for an entry: for a contested literal alone, when its second tokens are known. -/
def guardsOf (e : Entry) : List AltSpec :=
  match e.alt, e.o.s with
  | some alt, [f] =>
    if entries.any (contests E e) && e.o.b ≤ 1 then (synthKeywordGuards E prod e.o alt f).getD []
    else []
  | _, _ => []

/-- An alternate, the entry it was placed for, and whether it is a guard. -/
structure Sourced where
  entry : Nat
  guard : Bool
  o : AltSpec

/-- The alternates placed for an entry. -/
def sourced (i : Nat) (e : Entry) : List Sourced :=
  (guardsOf E prod entries e).map (⟨i, true, ·⟩) ++ [⟨i, false, e.o⟩]

/-- No contest touches the entry. -/
def Untouched (i : Nat) (e : Entry) : Prop :=
  i ∉ contestedClasses E entries ∧ ∀ c ∈ entries, contests E e c = false

/-- Which of two alternates has to come first. -/
inductive MustPrecede : Sourced → Sourced → Prop
  /-- The guards of a keyword, ahead of a class entry that contests it. -/
  | guard {a b : Sourced} {e c : Entry} (ha : entries[a.entry]? = some e)
      (hb : entries[b.entry]? = some c) (hc : contests E e c = true) (hguard : a.guard = true)
      (hentry : b.guard = false) : MustPrecede a b
  /-- A keyword that looks ahead by itself, too. -/
  | ahead {a b : Sourced} {e c : Entry} (ha : entries[a.entry]? = some e)
      (hb : entries[b.entry]? = some c) (hc : contests E e c = true) (hlen : 2 ≤ e.o.s.length)
      (hentry : b.guard = false) : MustPrecede a b
  /-- A class entry, ahead of the one-token form of a keyword it contests. -/
  | behind {a b : Sourced} {e c : Entry} (ha : entries[a.entry]? = some c)
      (hb : entries[b.entry]? = some e) (hc : contests E e c = true)
      (hguards : guardsOf E prod entries e ≠ []) (haentry : a.guard = false)
      (hbentry : b.guard = false) : MustPrecede a b
  /-- Of two contested classes the longer lookahead. -/
  | longer {a b : Sourced} {e e' : Entry} (ha : entries[a.entry]? = some e)
      (hb : entries[b.entry]? = some e') (hac : a.entry ∈ contestedClasses E entries)
      (hbc : b.entry ∈ contestedClasses E entries) (hlen : e'.o.s.length < e.o.s.length) :
      MustPrecede a b
  /-- Of two entries no contest touches the earlier. -/
  | untouched {a b : Sourced} {e e' : Entry} (ha : entries[a.entry]? = some e)
      (hb : entries[b.entry]? = some e') (hau : Untouched E entries a.entry e)
      (hbu : Untouched E entries b.entry e') (hlt : a.entry < b.entry) : MustPrecede a b

/-! ## Ranks -/

/-- The rank of the guards of the entry in slot `i`, and of the entry when it looks ahead itself. -/
def guardRank (i : Nat) (e : Entry) : Int :=
  match (contestedBy E entries e).head? with
  | some c => min (2 * i) (2 * c - 1)
  | none => 2 * i

/-- The rank of the entry in slot `i`. -/
def entryRank (i : Nat) (e : Entry) : Int :=
  if (guardsOf E prod entries e).isEmpty then
    if 2 ≤ e.o.s.length then guardRank E entries i e else 2 * i
  else
    match (contestedBy E entries e).getLast? with
    | some c => max (2 * i) (2 * c + 1)
    | none => 2 * i

end

section

variable {E : Emitter} {prod : Production} {entries : List Entry} {i : Nat} {e : Entry}

theorem contestedBy_eq :
    contestedBy E entries e = (entries.zipIdx.filter fun (c, _) => contests E e c).map Prod.snd := by
  unfold contestedBy contests
  cases e.o.s.head?.bind fun f =>
      if E.literalHeads.contains f then E.contest.literalHeadRangesOf f else none with
  | none => simp
  | some fr =>
    cases e.alt with
    | none => simp
    | some alt => rfl

theorem mem_contestedBy {j : Nat} :
    j ∈ contestedBy E entries e ↔ ∃ c, entries[j]? = some c ∧ contests E e c = true := by
  rw [contestedBy_eq, List.mem_map]
  constructor
  · rintro ⟨⟨c, j'⟩, hmem, rfl⟩
    obtain ⟨hmem, hc⟩ := List.mem_filter.mp hmem
    exact ⟨c, List.mk_mem_zipIdx_iff_getElem?.mp hmem, hc⟩
  · rintro ⟨c, hj, hc⟩
    exact ⟨(c, j), List.mem_filter.mpr ⟨List.mk_mem_zipIdx_iff_getElem?.mpr hj, hc⟩, rfl⟩

/-- The class entries that contest an entry stand in order. -/
theorem contestedBy_sorted : (contestedBy E entries e).Pairwise (· < ·) := by
  rw [contestedBy_eq]
  refine List.Pairwise.sublist (List.filter_sublist.map _) ?_
  rw [List.zipIdx_map_snd]
  exact List.pairwise_lt_range'

theorem contestedBy_isEmpty :
    (contestedBy E entries e).isEmpty = !entries.any (contests E e) := by
  rw [Bool.eq_iff_iff, List.isEmpty_iff, List.eq_nil_iff_forall_not_mem]
  simp only [mem_contestedBy, not_exists, not_and, Bool.not_eq_true', List.any_eq_false]
  constructor
  · intro h c hc hcontest
    obtain ⟨j, hj⟩ := List.mem_iff_getElem?.mp hc
    exact h j c hj hcontest
  · exact fun h j c hj => h c (List.mem_of_getElem? hj)

theorem contests_cases {c : Entry} (h : contests E e c = true) :
    (∃ alt, e.alt = some alt) ∧ (∃ f s, e.o.s = f :: s ∧ f ∈ E.literalHeads) ∧
      ∃ g ∈ E.classHeads, c.o.s.head? = some g := by
  unfold contests at h
  cases hs : e.o.s with
  | nil => simp [hs] at h
  | cons f s =>
    rw [hs, List.head?_cons, Option.bind_some] at h
    by_cases hf : E.literalHeads.contains f = true
    · rw [if_pos hf] at h
      cases hr : E.contest.literalHeadRangesOf f with
      | none => simp [hr] at h
      | some fr =>
        simp only [hr, Bool.and_eq_true, Option.isSome_iff_exists] at h
        refine ⟨h.1, ⟨f, s, rfl, List.contains_iff_mem.mp hf⟩, ?_⟩
        cases hg : c.o.s.head? with
        | none => simp [hg] at h
        | some g =>
          by_cases hclass : E.classHeads.contains g = true
          · exact ⟨g, List.contains_iff_mem.mp hclass, rfl⟩
          · simp only [hg, if_neg hclass, Option.any_none, Bool.false_eq_true, and_false] at h
    · rw [if_neg hf] at h
      cases h

/-- Guards that are made are some. -/
theorem synthKeywordGuards_ne_nil {o : AltSpec} {alt : Sequence} {f : String}
    {guards : List AltSpec} (h : synthKeywordGuards E prod o alt f = some guards) :
    guards ≠ [] := by
  unfold synthKeywordGuards at h
  dsimp only at h
  split at h
  · cases h
  · split at h
    · cases h
    · next hseconds =>
      obtain rfl := Option.some.inj h
      simp only [Bool.or_eq_true, List.isEmpty_iff, not_or] at hseconds
      exact fun hnil => hseconds.1 (List.map_eq_nil_iff.mp hnil)

/-- The alternates of a slot, with their ranks. -/
theorem placeEntry_eq : placeEntry E prod entries i e =
    (guardsOf E prod entries e).map (⟨·, guardRank E entries i e⟩) ++
      [⟨e.o, entryRank E prod entries i e⟩] := by
  have hany : entries.any (contests E e) = !(contestedBy E entries e).isEmpty := by
    rw [contestedBy_isEmpty, Bool.not_not]
  unfold placeEntry entryRank guardRank guardsOf
  dsimp only
  rw [hany]
  cases hhits : contestedBy E entries e with
  | nil => cases e.alt <;> rcases e.o.s with _ | ⟨f, _ | ⟨g, s⟩⟩ <;> simp
  | cons c cs =>
    obtain ⟨c', -, hc⟩ := mem_contestedBy.mp (hhits ▸ List.mem_cons_self : c ∈ contestedBy E entries e)
    obtain ⟨⟨alt, halt⟩, ⟨f, s, hs, -⟩, -⟩ := contests_cases hc
    have hlast := List.getLast?_eq_some_getLast (List.cons_ne_nil c cs)
    rw [halt, hs, hlast, List.head?_cons]
    cases s with
    | cons g s => simp
    | nil =>
      by_cases hb : e.o.b ≤ 1
      · cases hsynth : synthKeywordGuards E prod e.o alt f with
        | none => simp [hb, hsynth]
        | some guards => simp [hb, hsynth, synthKeywordGuards_ne_nil hsynth]
      · simp [hb]

theorem guardRank_lt {j : Nat} (hj : j ∈ contestedBy E entries e) :
    guardRank E entries i e < 2 * j := by
  have hsorted : (contestedBy E entries e).Pairwise (· < ·) := contestedBy_sorted
  unfold guardRank
  cases hhits : contestedBy E entries e with
  | nil => simp [hhits] at hj
  | cons c cs =>
    rw [hhits] at hj hsorted
    have hle : c ≤ j := by
      rcases List.mem_cons.mp hj with rfl | hj
      · exact Nat.le_refl _
      · exact (List.rel_of_pairwise_cons hsorted hj).le
    simp only [List.head?_cons]
    omega

theorem entryRank_lt {j : Nat} (hj : j ∈ contestedBy E entries e) (hlen : 2 ≤ e.o.s.length) :
    entryRank E prod entries i e < 2 * j := by
  have hguards : guardsOf E prod entries e = [] := by
    unfold guardsOf
    rcases hs : e.o.s with _ | ⟨f, _ | ⟨g, s⟩⟩
    · cases e.alt <;> rfl
    · simp [hs] at hlen
    · cases e.alt <;> rfl
  unfold entryRank
  rw [hguards, List.isEmpty_nil, if_pos rfl, if_pos hlen]
  exact guardRank_lt hj

theorem lt_entryRank {j : Nat} (hj : j ∈ contestedBy E entries e)
    (hguards : guardsOf E prod entries e ≠ []) : 2 * j < entryRank E prod entries i e := by
  have hsorted : (contestedBy E entries e).Pairwise (· < ·) := contestedBy_sorted
  unfold entryRank
  rw [if_neg (by simpa using hguards)]
  cases hlast : (contestedBy E entries e).getLast? with
  | none => simp [List.getLast?_eq_none_iff.mp hlast] at hj
  | some c =>
    have hle : j ≤ c := by
      obtain ⟨init, hinit⟩ := List.getLast?_eq_some_iff.mp hlast
      rw [hinit] at hj hsorted
      rcases List.mem_append.mp hj with hj | hj
      · exact ((List.pairwise_append.mp hsorted).2.2 j hj c (List.mem_singleton.mpr rfl)).le
      · exact (List.mem_singleton.mp hj).le
    simp only
    omega

theorem guardsOf_of_uncontested (h : contestedBy E entries e = []) :
    guardsOf E prod entries e = [] := by
  have hany : entries.any (contests E e) = false := by
    rw [← Bool.not_eq_true', ← contestedBy_isEmpty, h, List.isEmpty_nil]
  unfold guardsOf
  rw [hany]
  rcases e.o.s with _ | ⟨f, _ | ⟨g, s⟩⟩ <;> cases e.alt <;> rfl

theorem rank_of_uncontested (h : contestedBy E entries e = []) :
    entryRank E prod entries i e = 2 * i := by
  unfold entryRank guardRank
  rw [guardsOf_of_uncontested h, h]
  simp

/-- An entry headed by a class is contested by none. -/
theorem contestedBy_of_class (hheads : ∀ f ∈ E.literalHeads, f ∉ E.classHeads) {g : String}
    (hg : e.o.s.head? = some g) (hclass : g ∈ E.classHeads) : contestedBy E entries e = [] := by
  refine List.eq_nil_iff_forall_not_mem.mpr fun j hj => ?_
  obtain ⟨c, -, hc⟩ := mem_contestedBy.mp hj
  obtain ⟨-, ⟨f, s, hs, hf⟩, -⟩ := contests_cases hc
  rw [hs, List.head?_cons] at hg
  obtain rfl := Option.some.inj hg
  exact hheads f hf hclass

/-! ## The permutation -/

variable (E entries) in
/-- The contested class entries by `moreSpecific`. -/
def specificOrder : List Nat :=
  (contestedClasses E entries).insertionSort fun i j => (entries[i]?).any fun e =>
    (entries[j]?).any fun e' => moreSpecific E e e'

variable (E entries) in
/-- The entry that comes to stand in the slot. -/
def slotSource (k : Nat) : Nat :=
  if (contestedClasses E entries).length < 2 then k
  else (((contestedClasses E entries).zip (specificOrder E entries)).lookup k).getD k

theorem perm_specificOrder : (specificOrder E entries).Perm (contestedClasses E entries) :=
  List.perm_insertionSort _ _

theorem zip_keys : ((contestedClasses E entries).zip (specificOrder E entries)).map Prod.fst =
    contestedClasses E entries := List.map_fst_zip perm_specificOrder.length_eq.ge

/-- A slot of a contested class is filled from one, and no other slot is. -/
theorem slotSource_mem {k : Nat} :
    slotSource E entries k ∈ contestedClasses E entries ↔ k ∈ contestedClasses E entries := by
  unfold slotSource
  split
  · exact Iff.rfl
  · cases hto : ((contestedClasses E entries).zip (specificOrder E entries)).lookup k with
    | none => rfl
    | some j =>
      have hmem := Table.mem_of_lookup hto
      have hk : k ∈ contestedClasses E entries := (List.of_mem_zip hmem).1
      have hj : j ∈ contestedClasses E entries :=
        perm_specificOrder.mem_iff.mp (List.of_mem_zip hmem).2
      exact iff_of_true hj hk

theorem slotSource_of_notMem {k : Nat} (h : k ∉ contestedClasses E entries) :
    slotSource E entries k = k := by
  unfold slotSource
  split
  · rfl
  · cases hto : ((contestedClasses E entries).zip (specificOrder E entries)).lookup k with
    | none => rfl
    | some j => exact absurd (List.of_mem_zip (Table.mem_of_lookup hto)).1 h

theorem specificityPermute_getElem? {k : Nat} (hk : k < entries.length) :
    (specificityPermute E entries)[k]? = entries[slotSource E entries k]? := by
  unfold specificityPermute slotSource
  dsimp only
  split
  · rfl
  · rw [List.getElem?_map, List.getElem?_zipIdx, List.getElem?_eq_getElem hk]
    simp only [Option.map_some, Nat.zero_add]
    cases hto : ((contestedClasses E entries).zip (specificOrder E entries)).lookup k with
    | none =>
      rw [Option.getD_none, List.getElem?_eq_getElem hk]
      exact congrArg some (by rw [specificOrder] at hto; rw [hto]; rfl)
    | some j =>
      have hj : j ∈ contestedClasses E entries :=
        perm_specificOrder.mem_iff.mp (List.of_mem_zip (Table.mem_of_lookup hto)).2
      rw [Option.getD_some, List.getElem?_eq_getElem (lt_of_mem_contestedClasses hj)]
      refine congrArg some ?_
      rw [specificOrder] at hto
      rw [hto, Option.bind_some, List.getElem?_eq_getElem (lt_of_mem_contestedClasses hj)]
      rfl

/-- **The slots are filled with every entry once.** -/
theorem slotSource_perm :
    ((List.range entries.length).map (slotSource E entries)).Perm (List.range entries.length) := by
  have hsurj : ∀ i < entries.length, ∃ k < entries.length, slotSource E entries k = i := by
    intro i hi
    by_cases hmem : i ∈ contestedClasses E entries
    · unfold slotSource
      split
      · exact ⟨i, hi, rfl⟩
      · -- the slot of the place the entry has in the order
        obtain ⟨q, hq⟩ := List.mem_iff_getElem?.mp (perm_specificOrder.mem_iff.mpr hmem)
        have hqlt : q < (contestedClasses E entries).length := by
          rw [← perm_specificOrder.length_eq]
          exact (List.getElem?_eq_some_iff.mp hq).1
        have hzip : ((contestedClasses E entries)[q], i) ∈
            (contestedClasses E entries).zip (specificOrder E entries) :=
          List.mem_iff_getElem?.mpr ⟨q, List.getElem?_zip_eq_some.mpr
            ⟨List.getElem?_eq_getElem hqlt, hq⟩⟩
        refine ⟨_, lt_of_mem_contestedClasses (List.getElem_mem hqlt), ?_⟩
        rw [Table.lookup_of_mem (by rw [zip_keys]; exact nodup_contestedClasses) hzip,
          Option.getD_some]
    · exact ⟨i, hi, slotSource_of_notMem hmem⟩
  have hsub : (List.range entries.length).Subperm
      ((List.range entries.length).map (slotSource E entries)) := by
    refine List.nodup_range.subperm fun i hi => ?_
    obtain ⟨k, hk, rfl⟩ := hsurj i (List.mem_range.mp hi)
    exact List.mem_map_of_mem (List.mem_range.mpr hk)
  exact (hsub.perm_of_length_le (by simp)).symm

theorem contestedClasses_sorted : (contestedClasses E entries).Pairwise (· < ·) := by
  unfold contestedClasses
  refine List.Pairwise.sublist (List.filter_sublist.map _) ?_
  rw [List.zipIdx_map_snd]
  exact List.pairwise_lt_range'

/-- The longer lookahead stands first in the order. -/
theorem specificOrder_sorted : (specificOrder E entries).Pairwise fun i j =>
    ∀ e e', entries[i]? = some e → entries[j]? = some e' → e'.o.s.length ≤ e.o.s.length := by
  let len (i : Nat) : Nat := ((entries[i]?).map (·.o.s.length)).getD 0
  let span (i : Nat) : Nat := ((entries[i]?).map (entrySpan E)).getD 0
  let r (i j : Nat) : Prop := len j < len i ∨ len i = len j ∧ span j ≤ span i
  have htotal : Std.Total r := ⟨fun i j => by dsimp only [r]; omega⟩
  have htrans : IsTrans Nat r := ⟨fun i j k => by dsimp only [r]; omega⟩
  -- on the entries the order is that of a total relation
  have heq : specificOrder E entries = (contestedClasses E entries).insertionSort r := by
    have hmap := List.map_insertionSort (fun i j => ((entries[i]?).any fun e =>
      (entries[j]?).any fun e' => moreSpecific E e e') = true) r id (contestedClasses E entries) ?_
    · simpa [specificOrder] using hmap
    · intro i hi j hj
      have hi' := List.getElem?_eq_getElem (lt_of_mem_contestedClasses hi)
      have hj' := List.getElem?_eq_getElem (lt_of_mem_contestedClasses hj)
      simp only [hi', hj', Option.any_some, moreSpecific, id_eq, r, len, span, Option.map_some,
        Option.getD_some, Bool.or_eq_true, Bool.and_eq_true, decide_eq_true_eq, beq_iff_eq]
  rw [heq]
  refine (List.pairwise_insertionSort r _).imp fun {i j} hr e e' he he' => ?_
  simp only [r, len, he, he', Option.map_some, Option.getD_some] at hr
  omega

/-- Of two contested classes the longer lookahead stands in the earlier slot. -/
theorem slot_lt_of_longer {k k' : Nat} {e e' : Entry}
    (hk : slotSource E entries k ∈ contestedClasses E entries)
    (hk' : slotSource E entries k' ∈ contestedClasses E entries)
    (he : entries[slotSource E entries k]? = some e)
    (he' : entries[slotSource E entries k']? = some e') (hlen : e'.o.s.length < e.o.s.length) :
    k < k' := by
  have hne : slotSource E entries k ≠ slotSource E entries k' := by
    intro heq
    rw [heq, he'] at he
    obtain rfl := Option.some.inj he
    exact absurd hlen (lt_irrefl _)
  have hkmem := slotSource_mem.mp hk
  have hkmem' := slotSource_mem.mp hk'
  by_cases hlen2 : (contestedClasses E entries).length < 2
  · have hone : ∀ a ∈ contestedClasses E entries, ∀ b ∈ contestedClasses E entries, a = b := by
      match hc : contestedClasses E entries, hlen2 with
      | [], _ => simp
      | [x], _ => simp
    exact absurd (congrArg _ (hone k hkmem k' hkmem')) hne
  · have hslot : ∀ (j : Nat), j ∈ contestedClasses E entries → ∃ q : Nat,
        (contestedClasses E entries)[q]? = some j ∧
          (specificOrder E entries)[q]? = some (slotSource E entries j) := by
      intro j hj
      obtain ⟨q, hq⟩ := List.mem_iff_getElem?.mp hj
      have hqlt : q < (specificOrder E entries).length := by
        rw [perm_specificOrder.length_eq]
        exact (List.getElem?_eq_some_iff.mp hq).1
      have hq' := List.getElem?_eq_getElem hqlt
      have hzip : (j, (specificOrder E entries)[q]) ∈
          (contestedClasses E entries).zip (specificOrder E entries) :=
        List.mem_iff_getElem?.mpr ⟨q, List.getElem?_zip_eq_some.mpr ⟨hq, hq'⟩⟩
      refine ⟨q, hq, ?_⟩
      rw [hq', slotSource, if_neg hlen2,
        Table.lookup_of_mem (by rw [zip_keys]; exact nodup_contestedClasses) hzip, Option.getD_some]
    obtain ⟨q, hq, hoq⟩ := hslot k hkmem
    obtain ⟨q', hq', hoq'⟩ := hslot k' hkmem'
    obtain ⟨hqlt, hoq⟩ := List.getElem?_eq_some_iff.mp hoq
    obtain ⟨hqlt', hoq'⟩ := List.getElem?_eq_some_iff.mp hoq'
    have hlt : q < q' := by
      by_contra hge
      rcases Nat.lt_or_eq_of_le (Nat.le_of_not_lt hge) with hlt | rfl
      · have hle := List.pairwise_iff_getElem.mp specificOrder_sorted q' q hqlt' hqlt hlt e' e
          (by rw [hoq', he']) (by rw [hoq, he])
        omega
      · exact hne (hoq.symm.trans hoq')
    obtain ⟨hclt, rfl⟩ := List.getElem?_eq_some_iff.mp hq
    obtain ⟨hclt', rfl⟩ := List.getElem?_eq_some_iff.mp hq'
    exact List.pairwise_iff_getElem.mp contestedClasses_sorted q q' hclt hclt' hlt

/-! ## The result -/

/-- The guards do not depend on the order of the entries. -/
theorem guardsOf_specificityPermute :
    guardsOf E prod (specificityPermute E entries) e = guardsOf E prod entries e := by
  have hany : (specificityPermute E entries).any (contests E e) = entries.any (contests E e) := by
    rw [Bool.eq_iff_iff, List.any_eq_true, List.any_eq_true]
    simp only [mem_specificityPermute]
  unfold guardsOf
  rw [hany]

/-- A contested class is headed by one. -/
theorem head_of_mem_contestedClasses (h : i ∈ contestedClasses E entries)
    (he : entries[i]? = some e) : ∃ g ∈ E.classHeads, e.o.s.head? = some g := by
  unfold contestedClasses at h
  obtain ⟨⟨e', j⟩, hmem, rfl⟩ := List.mem_map.mp h
  obtain ⟨hmem, hranges⟩ := List.mem_filter.mp hmem
  have he' := List.mk_mem_zipIdx_iff_getElem?.mp hmem
  obtain rfl : e = e' := Option.some.inj (he.symm.trans he')
  dsimp only at hranges
  unfold classRangesOf at hranges
  cases hg : e.o.s.head? with
  | none => simp [hg] at hranges
  | some g =>
    by_cases hclass : (e.alt.isSome && E.classHeads.contains g) = true
    · exact ⟨g, List.contains_iff_mem.mp (Bool.and_eq_true _ _ ▸ hclass).2, rfl⟩
    · simp only [hg, if_neg hclass, Option.any_none, Bool.false_eq_true] at hranges

variable (E prod entries) in
/-- The alternates of the slot `k`, with their ranks. -/
def placedAt (k : Nat) (e : Entry) : List (Sourced × Int) :=
  (guardsOf E prod (specificityPermute E entries) e).map
      (fun g => (⟨slotSource E entries k, true, g⟩,
        guardRank E (specificityPermute E entries) k e)) ++
    [(⟨slotSource E entries k, false, e.o⟩,
      entryRank E prod (specificityPermute E entries) k e)]

variable (E prod entries) in
/-- The alternates of every slot, with their ranks. -/
def placedSlots : List (Sourced × Int) :=
  (specificityPermute E entries).zipIdx.flatMap fun (e, k) => placedAt E prod entries k e

theorem specificityPermute_length : (specificityPermute E entries).length = entries.length := by
  unfold specificityPermute
  dsimp only
  split <;> simp

/-- Where a placed alternate stands. -/
theorem mem_placedSlots {a : Sourced × Int} (h : a ∈ placedSlots E prod entries) :
    ∃ k e, (specificityPermute E entries)[k]? = some e ∧ a.1.entry = slotSource E entries k ∧
      entries[a.1.entry]? = some e ∧
      (a.1.guard = true ∧ guardsOf E prod (specificityPermute E entries) e ≠ [] ∧
          a.2 = guardRank E (specificityPermute E entries) k e ∨
        a.1.guard = false ∧ a.2 = entryRank E prod (specificityPermute E entries) k e) := by
  obtain ⟨⟨e, k⟩, hmem, ha⟩ := List.mem_flatMap.mp h
  have hk := List.mk_mem_zipIdx_iff_getElem?.mp hmem
  have hlt : k < entries.length := by
    rw [← specificityPermute_length (E := E)]
    exact (List.getElem?_eq_some_iff.mp hk).1
  have hentry := (specificityPermute_getElem? hlt).symm.trans hk
  rcases List.mem_append.mp ha with ha | ha
  · obtain ⟨g, hg, rfl⟩ := List.mem_map.mp ha
    exact ⟨k, e, hk, rfl, hentry, .inl ⟨rfl, List.ne_nil_of_mem hg, rfl⟩⟩
  · obtain rfl := List.mem_singleton.mp ha
    exact ⟨k, e, hk, rfl, hentry, .inr ⟨rfl, rfl⟩⟩

/-- **What has to come first ranks first.** -/
theorem rank_lt_of_mustPrecede (hheads : ∀ f ∈ E.literalHeads, f ∉ E.classHeads)
    {a b : Sourced × Int} (ha : a ∈ placedSlots E prod entries)
    (hb : b ∈ placedSlots E prod entries) (h : MustPrecede E prod entries a.1 b.1) : a.2 < b.2 := by
  obtain ⟨k, e, hk, hak, hae, har⟩ := mem_placedSlots ha
  obtain ⟨k', e', hk', hbk, hbe, hbr⟩ := mem_placedSlots hb
  -- an alternate of an entry nothing contests is the entry itself, and has the rank of its slot
  have hslot : ∀ {x : Sourced × Int} {k : Nat} {e : Entry},
      contestedBy E (specificityPermute E entries) e = [] →
      (x.1.guard = true ∧ guardsOf E prod (specificityPermute E entries) e ≠ [] ∧
          x.2 = guardRank E (specificityPermute E entries) k e ∨
        x.1.guard = false ∧ x.2 = entryRank E prod (specificityPermute E entries) k e) →
      x.2 = 2 * k := by
    rintro x k e hnone (⟨-, hguards, -⟩ | ⟨-, hrank⟩)
    · exact absurd (guardsOf_of_uncontested hnone) hguards
    · rw [hrank, rank_of_uncontested hnone]
  have hclass : ∀ {e : Entry}, (∃ g ∈ E.classHeads, e.o.s.head? = some g) →
      contestedBy E (specificityPermute E entries) e = [] := by
    rintro e ⟨g, hg, hhead⟩
    exact contestedBy_of_class hheads hhead hg
  cases h with
  | guard ha' hb' hc hguard hentry =>
    obtain rfl := Option.some.inj (ha'.symm.trans hae)
    obtain rfl := Option.some.inj (hb'.symm.trans hbe)
    rw [hslot (hclass (contests_cases hc).2.2) hbr]
    rcases har with ⟨-, -, hrank⟩ | ⟨hfalse, -⟩
    · rw [hrank]
      exact guardRank_lt (mem_contestedBy.mpr ⟨_, hk', hc⟩)
    · exact absurd (hguard.symm.trans hfalse) (by decide)
  | ahead ha' hb' hc hlen hentry =>
    obtain rfl := Option.some.inj (ha'.symm.trans hae)
    obtain rfl := Option.some.inj (hb'.symm.trans hbe)
    have hmem : k' ∈ contestedBy E (specificityPermute E entries) _ :=
      mem_contestedBy.mpr ⟨_, hk', hc⟩
    rw [hslot (hclass (contests_cases hc).2.2) hbr]
    rcases har with ⟨-, -, hrank⟩ | ⟨-, hrank⟩
    · rw [hrank]
      exact guardRank_lt hmem
    · rw [hrank]
      exact entryRank_lt hmem hlen
  | behind ha' hb' hc hguards haentry hbentry =>
    obtain rfl := Option.some.inj (ha'.symm.trans hae)
    obtain rfl := Option.some.inj (hb'.symm.trans hbe)
    rw [hslot (hclass (contests_cases hc).2.2) har]
    rcases hbr with ⟨htrue, -, -⟩ | ⟨-, hrank⟩
    · exact absurd (htrue.symm.trans hbentry) (by decide)
    · rw [hrank]
      refine lt_entryRank (mem_contestedBy.mpr ⟨_, hk, hc⟩) ?_
      rwa [guardsOf_specificityPermute]
  | longer ha' hb' hac hbc hlen =>
    obtain rfl := Option.some.inj (ha'.symm.trans hae)
    obtain rfl := Option.some.inj (hb'.symm.trans hbe)
    rw [hslot (hclass (head_of_mem_contestedClasses hac hae)) har,
      hslot (hclass (head_of_mem_contestedClasses hbc hbe)) hbr]
    rw [hak] at hac hae
    rw [hbk] at hbc hbe
    have hlt := slot_lt_of_longer hac hbc hae hbe hlen
    omega
  | untouched ha' hb' hau hbu hlt =>
    obtain rfl := Option.some.inj (ha'.symm.trans hae)
    obtain rfl := Option.some.inj (hb'.symm.trans hbe)
    have hnone : ∀ {i : Nat} {e : Entry}, Untouched E entries i e →
        contestedBy E (specificityPermute E entries) e = [] := by
      intro i e hu
      refine List.eq_nil_iff_forall_not_mem.mpr fun j hj => ?_
      obtain ⟨c, hc, hcontest⟩ := mem_contestedBy.mp hj
      have hmem := mem_specificityPermute.mp (List.mem_of_getElem? hc)
      exact Bool.false_ne_true ((hu.2 c hmem).symm.trans hcontest)
    have hstay : ∀ {x : Nat} {j : Nat}, x = slotSource E entries j →
        x ∉ contestedClasses E entries → x = j := by
      rintro x j rfl hx
      exact slotSource_of_notMem fun hj => hx (slotSource_mem.mpr hj)
    rw [hslot (hnone hau) har, hslot (hnone hbu) hbr]
    have hak' := hstay hak hau.1
    have hbk' := hstay hbk hbu.1
    omega

/-- The elements of a list by their index. -/
theorem flatMap_zipIdx {α β : Type*} (f : α × Nat → List β) (xs : List α) : xs.zipIdx.flatMap f =
    (List.range xs.length).flatMap fun k => (xs[k]?).toList.flatMap fun x => f (x, k) := by
  induction xs using List.reverseRecOn with
  | nil => rfl
  | append_singleton xs x ih =>
    have hlast : (xs ++ [x])[xs.length]? = some x := by simp
    rw [List.zipIdx_append, List.flatMap_append, List.length_append, List.length_singleton,
      List.range_succ, List.flatMap_append, List.flatMap_singleton, hlast, ih]
    refine congr_arg₂ (· ++ ·) (List.flatMap_congr fun k hk => ?_) (by simp)
    rw [List.getElem?_append_left (List.mem_range.mp hk)]

/-- The alternates of every slot are those of every entry. -/
theorem perm_placedSlots : ((placedSlots E prod entries).map Prod.fst).Perm
    (entries.zipIdx.flatMap fun (e, i) => sourced E prod entries i e) := by
  have hslots : (placedSlots E prod entries).map Prod.fst =
      ((List.range entries.length).map (slotSource E entries)).flatMap fun i =>
        (entries[i]?).toList.flatMap (sourced E prod entries i) := by
    rw [placedSlots, List.map_flatMap, flatMap_zipIdx, specificityPermute_length, List.flatMap_map]
    refine List.flatMap_congr fun k hk => ?_
    rw [specificityPermute_getElem? (List.mem_range.mp hk)]
    refine List.flatMap_congr fun e _ => ?_
    show List.map Prod.fst (placedAt E prod entries k e) = _
    rw [placedAt, guardsOf_specificityPermute, List.map_append, List.map_map]
    rfl
  rw [hslots, flatMap_zipIdx]
  exact slotSource_perm.flatMap_right _

/-- **The order of the entries.** `specificity_permute` followed by `reorder_keyword_shadow` returns
every entry once, unchanged, and the guards that are made, and what has to come first does: for
heads of literals and of character classes told apart. -/
theorem placeOrder (prod : Production) (entries : List Entry)
    (hheads : ∀ f ∈ E.literalHeads, f ∉ E.classHeads) :
    ∃ out : List Sourced,
      out.map Sourced.o = reorderKeywordShadow E prod (specificityPermute E entries) ∧
      out.Perm (entries.zipIdx.flatMap fun (e, i) => sourced E prod entries i e) ∧
      out.Pairwise fun a b => ¬ MustPrecede E prod entries b a := by
  let r (a b : Sourced × Int) : Prop := a.2 ≤ b.2
  have htotal : Std.Total r := ⟨fun a b => Int.le_total a.2 b.2⟩
  have htrans : IsTrans (Sourced × Int) r := ⟨fun a b c => Int.le_trans⟩
  have hdec : DecidableRel r := fun a b => inferInstanceAs (Decidable (a.2 ≤ b.2))
  refine ⟨((placedSlots E prod entries).insertionSort r).map Prod.fst, ?_, ?_, ?_⟩
  · have hplaced : (placedSlots E prod entries).map (fun a => (⟨a.1.o, a.2⟩ : Placed)) =
        (specificityPermute E entries).zipIdx.flatMap fun (e, i) =>
          placeEntry E prod (specificityPermute E entries) i e := by
      rw [placedSlots, List.map_flatMap]
      refine List.flatMap_congr ?_
      rintro ⟨e, k⟩ -
      show _ = placeEntry E prod (specificityPermute E entries) k e
      rw [placeEntry_eq]
      show List.map _ (placedAt E prod entries k e) = _
      rw [placedAt, List.map_append, List.map_map]
      rfl
    unfold reorderKeywordShadow
    rw [← hplaced, ← List.map_insertionSort r (fun a b : Placed => a.rank ≤ b.rank) _ _
      (fun _ _ _ _ => Iff.rfl), List.map_map, List.map_map]
    rfl
  · exact ((List.perm_insertionSort r _).map Prod.fst).trans perm_placedSlots
  · refine List.pairwise_map.mpr ((List.pairwise_insertionSort r _).imp_of_mem ?_)
    intro a b ha hb hle hprec
    have hlt := rank_lt_of_mustPrecede hheads ((List.mem_insertionSort r).mp hb)
      ((List.mem_insertionSort r).mp ha) hprec
    exact absurd hle (Int.not_le.mpr hlt)

end

/-! ## A keyword and a name -/

/-- The rule of the entries below. -/
def statement : Production where
  name := "S"
  alts := [[.token "#ID" none], [.token "#IF" none]]

/-- An emitter over `S = #ID / #IF`, where `#CA` may follow `S`: `#ID` is a class of letters, `#IF`
the literal `if`. -/
def keywordEmitter : Emitter where
  grammar := { productions := [statement] }
  tokens := {}
  sets := [.first "S" "#ID", .first "S" "#IF"]
  follow := [("S", "#CA")]
  pairs := []
  contest :=
    { tokenRangesOf := fun t => if t = "#ID" then some [(97, 122)] else none
      literalHeadRangesOf := fun t => if t = "#IF" then some [(105, 105)] else none
      tokensOverlap := fun _ _ => true
      headsContest := fun _ _ => true
      classSets := [] }
  arrayHelpers := []
  valuePlan := []
  literalHeads := ["#IF"]
  classHeads := ["#ID"]

/-- The entries of `S`, with the fallback. -/
def keywordEntries : List Entry :=
  [⟨{ s := ["#ID"] }, some [.token "#ID" none]⟩, ⟨{ s := ["#IF"] }, some [.token "#IF" none]⟩,
    ⟨{}, none⟩]

/-- The keyword's guard comes before the class, its one-token form behind. -/
theorem placeOrder_keyword : ∃ out : List Sourced,
    out.map Sourced.o = [{ s := ["#IF", "#CA"], b := 1 }, { s := ["#ID"] }, { s := ["#IF"] }, {}] ∧
    out.Perm (keywordEntries.zipIdx.flatMap fun (e, i) =>
      sourced keywordEmitter statement keywordEntries i e) ∧
    out.Pairwise fun a b => ¬ MustPrecede keywordEmitter statement keywordEntries b a := by
  obtain ⟨out, hout, hperm, horder⟩ := placeOrder (E := keywordEmitter) statement keywordEntries
    (by decide)
  exact ⟨out, hout.trans (by decide +kernel), hperm, horder⟩

end TabnasBnf
