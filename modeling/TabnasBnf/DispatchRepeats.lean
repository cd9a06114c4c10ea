import TabnasBnf.EmptyInput
import TabnasBnf.PathFollows

/-!
# Dispatch prefixes and tail repeats

A string of an alternative begins with a dispatch prefix just when it begins with tokens that the
alternatives alone may have read and that select it (`Selects`): the enumeration stops there, or they
differ from all another alternative may have read and from every exit (`exists_prefixUnder`,
`Cut.selects`). A string without a separator within the window does. One with a separator may not:
the enumeration reads what stands behind the repeating rule, and never its separator
(`Compile.dispatchPrefixes_covers`, `dispatchPrefixes_misses_separator`).
-/

namespace TabnasBnf

section

variable {grammar : Grammar} {tokens : Tokens} {classSets : List (String × String)}

/-! ## Distinct prefixes -/

/-- A name that holds no space. -/
def Spaceless (t : String) : Prop := ' ' ∉ t.toList

/-- Joined with spaces, names that hold none tell themselves apart. -/
theorem intercalate_injective {p q : List String} (hp : p ≠ []) (hq : q ≠ [])
    (hps : ∀ t ∈ p, Spaceless t) (hqs : ∀ t ∈ q, Spaceless t)
    (h : " ".intercalate p = " ".intercalate q) : p = q := by
  have hsplit : ∀ l : List String, l ≠ [] → (∀ t ∈ l, Spaceless t) →
      (" ".intercalate l).toList.splitOn ' ' = l.map String.toList := by
    intro l hl hs
    rw [String.toList_intercalate, show " ".toList = [' '] from rfl]
    exact List.splitOn_intercalate ' ' (by simpa [Spaceless] using hs) (by simpa using hl)
  have hmap : p.map String.toList = q.map String.toList := by
    rw [← hsplit p hp hps, ← hsplit q hq hqs, h]
  exact List.map_injective_iff.mpr (fun _ _ => String.toList_injective) hmap

/-- A prefix is kept, or its key was seen. -/
theorem mem_or_seen {p : List String} (hne : p ≠ []) (hs : ∀ t ∈ p, Spaceless t) :
    ∀ {ps : List (List String)} {seen : List String},
      (∀ q ∈ ps, q ≠ [] ∧ ∀ t ∈ q, Spaceless t) → p ∈ ps →
      p ∈ distinctPrefixes seen ps ∨ " ".intercalate p ∈ seen
  | [], _, _, h => by cases h
  | q :: rest, seen, hall, h => by
    have hrest : ∀ q ∈ rest, q ≠ [] ∧ ∀ t ∈ q, Spaceless t :=
      fun r hr => hall r (List.mem_cons_of_mem _ hr)
    unfold distinctPrefixes
    dsimp only
    by_cases hseen : seen.contains (" ".intercalate q)
    · rw [if_pos hseen]
      rcases List.mem_cons.mp h with rfl | h
      · exact .inr (by simpa using hseen)
      · exact mem_or_seen hne hs hrest h
    · rw [if_neg hseen]
      rcases List.mem_cons.mp h with rfl | h
      · exact .inl List.mem_cons_self
      · have hrec := @mem_or_seen p hne hs rest (" ".intercalate q :: seen) hrest h
        rcases hrec with h | h
        · exact .inl (List.mem_cons_of_mem _ h)
        · rcases List.mem_cons.mp h with h | h
          · have hq := hall q List.mem_cons_self
            rw [intercalate_injective hne hq.1 hs hq.2 h]
            exact .inl List.mem_cons_self
          · exact .inr h

/-! ## What is returned -/

section Result

variable {contest : String → String → Bool} {maxK : Nat} {exits : List (List String)}
  {alts : List Sequence} {contested : List (List String)} {deep : List (List (List String))}
  {out : List DispatchPrefixes}

variable (grammar tokens classSets contest maxK exits alts) in
/-- The tokens differ, by tokens that do not contest, from all another alternative may have read
where its enumeration stops, and from every exit. -/
def ToldApart (i : Nat) (x : List String) : Prop :=
  (∀ j alt, j ≠ i → alts[j]? = some alt → ∀ y, y ≠ [] → ReadsUpTo grammar tokens classSets alt y →
    StopsAt grammar tokens classSets maxK alt y → Differ contest x y) ∧
  ∀ e ∈ exits, Differ contest x e

variable (grammar tokens classSets contest maxK exits alts) in
/-- The alternative `i` may have read the tokens, and there its enumeration stops or they tell it
apart. -/
def Selects (i : Nat) (alt : Sequence) (x : List String) : Prop :=
  x ≠ [] ∧ ReadsUpTo grammar tokens classSets alt x ∧
    (StopsAt grammar tokens classSets maxK alt x ∨
      ToldApart grammar tokens classSets contest maxK exits alts i x)

/-- A cut is no longer than what tells the path from every rival. -/
theorem depthOf_le {p : List String} {j : Nat} :
    ∀ {rivals : List (List String)} {d : Nat}, d ≤ j →
      (∀ r ∈ rivals, ∃ k, differAt contest p r = some k ∧ k < j) →
      depthOf contest p rivals d ≤ j
  | [], d, hd, _ => hd
  | r :: rest, d, hd, h => by
    obtain ⟨k, hk, hlt⟩ := h r List.mem_cons_self
    unfold depthOf
    rw [hk]
    exact depthOf_le (max_le hd hlt) fun r hr => h r (List.mem_cons_of_mem _ hr)

theorem differAt_of_differ : ∀ {p q : List String} {k : Nat} {a b : String}, p[k]? = some a →
    q[k]? = some b → contest a b = false → ∃ k' ≤ k, differAt contest p q = some k'
  | [], _, k, _, _, hp, _, _ => by simp at hp
  | _ :: _, [], k, _, _, _, hq, _ => by simp at hq
  | x :: p, y :: q, k, a, b, hp, hq, hab => by
    unfold differAt
    by_cases hxy : contest x y = true
    · rw [if_pos hxy]
      cases k with
      | zero =>
        obtain rfl : x = a := by simpa using hp
        obtain rfl : y = b := by simpa using hq
        rw [hxy] at hab
        cases hab
      | succ k =>
        obtain ⟨k', hle, hk'⟩ := differAt_of_differ (p := p) (q := q) (k := k)
          (by simpa using hp) (by simpa using hq) hab
        exact ⟨k' + 1, by omega, by rw [hk', Option.map_some]⟩
    · rw [if_neg hxy]
      exact ⟨0, Nat.zero_le _, rfl⟩

/-- Where its beginning differs from a path, a path does. -/
theorem differAt_of_isPrefix {x p r : List String} (hx : x <+: p) (h : Differ contest x r) :
    ∃ k, differAt contest p r = some k ∧ k < x.length := by
  obtain ⟨k, a, b, ha, hb, hab⟩ := h
  have hk : k < x.length := (List.getElem?_eq_some_iff.mp ha).1
  have hpk : p[k]? = some a := by
    obtain ⟨v, rfl⟩ := hx
    rw [List.getElem?_append_left hk, ha]
  obtain ⟨k', hle, hk'⟩ := differAt_of_differ hpk hb hab
  exact ⟨k', hk', by omega⟩

theorem Differ.of_isPrefix {x y r : List String} (h : Differ contest x r) (hr : r <+: y) :
    Differ contest x y := by
  obtain ⟨k, a, b, ha, hb, hab⟩ := h
  obtain ⟨v, rfl⟩ := hr
  exact ⟨k, a, b, ha, by rw [List.getElem?_append_left (List.getElem?_eq_some_iff.mp hb).1, hb], hab⟩

theorem Differ.take {p r : List String} {k j : Nat} (h : differAt contest p r = some k)
    (hj : k < j) : Differ contest (p.take j) r := by
  obtain ⟨a, b, ha, hb, hab⟩ := differAt_some h
  exact ⟨k, a, b, by rw [List.getElem?_take_of_lt hj, ha], hb, hab⟩

/-! ### Heads -/

theorem enumerate_nil {k : Nat} :
    enumerate grammar tokens classSets k (fun _ => true) [] = [⟨[], false⟩] := by
  rw [enumerate, altPrefixesRaw_succ]
  rfl

/-- The heads are what the paths of one token hold. -/
theorem mem_headsOf {alt : Sequence} {t : String} : t ∈ headsOf grammar tokens classSets alt ↔
    ∃ q ∈ enumerate grammar tokens classSets 1 (fun _ => true) alt, q.tokens = [t] := by
  unfold headsOf onePaths
  rw [List.mem_eraseDups]
  by_cases halt : alt = []
  · subst halt
    simp [enumerate_nil]
  · rw [if_neg (by simpa using halt), List.mem_filterMap]
    refine exists_congr fun q => and_congr_right fun _ => ?_
    constructor
    · intro h
      split at h
      · next heq => rw [heq, Option.some.inj h]
      · cases h
    · intro h
      rw [h]

/-- The head of what the alternatives may have read is a head. -/
theorem head_mem_headsOf (hnd : grammar.names.Nodup) (hplain : Plain grammar) {alt : Sequence}
    (halt : ∀ el ∈ alt, el.isTerminal = true ∨ el.isRef = true)
    (hlr : NoLeftRecursion grammar tokens classSets alt) {t : String} {v : List String}
    (h : ReadsUpTo grammar tokens classSets alt (t :: v)) :
    t ∈ headsOf grammar tokens classSets alt := by
  obtain ⟨q, hq, hqne, hqv⟩ :=
    exists_path_of_readsUpTo hnd hplain halt hlr Nat.one_pos (List.cons_ne_nil t v) h
  have hlen := within_true hq
  obtain ⟨a, ts, hts⟩ := List.exists_cons_of_ne_nil hqne
  obtain rfl : ts = [] := by
    rw [hts] at hlen
    simpa using hlen
  refine mem_headsOf.mpr ⟨q, hq, ?_⟩
  rw [hts] at hqv ⊢
  rcases hqv with hqv | hqv
  · rw [(List.cons_prefix_cons.mp hqv).1]
  · rw [(List.cons_prefix_cons.mp hqv).1]

theorem ne_nil_of_deep {contested : List String} {alt : Sequence} {p : List String}
    (h : p ∈ deepPaths grammar tokens classSets maxK contested alt) : p ≠ [] := by
  unfold deepPaths at h
  split at h
  · cases h
  · simpa using (List.mem_filter.mp h).2

/-- A path under a contested head is a deep path. -/
theorem mem_deepPaths {cs : List String} {alt : Sequence} {q : PrefixPath} {t : String}
    {ts : List String} (hq : q ∈ enumerate grammar tokens classSets maxK (fun _ => true) alt)
    (htokens : q.tokens = t :: ts) (ht : t ∈ cs) :
    q.tokens ∈ deepPaths grammar tokens classSets maxK cs alt := by
  have hne : cs.isEmpty = false := by
    cases cs with
    | nil => cases ht
    | cons _ _ => rfl
  obtain ⟨_, done⟩ := q
  subst htokens
  unfold deepPaths
  rw [hne]
  refine List.mem_filter.mpr ⟨List.mem_map.mpr ⟨⟨t :: ts, done⟩, ?_, rfl⟩, rfl⟩
  refine mem_enumerate.mpr ⟨hq, ?_⟩
  rw [admitted_cons]
  exact List.contains_iff_mem.mpr ht

theorem spaceless_of_headsOf
    (hgrammar : ∀ p ∈ grammar.productions, ∀ alt ∈ p.alts, Adds tokens classSets Spaceless alt)
    {alt : Sequence} (halt : Adds tokens classSets Spaceless alt) {t : String}
    (ht : t ∈ headsOf grammar tokens classSets alt) : Spaceless t := by
  unfold headsOf onePaths at ht
  obtain ⟨q, hq, htok⟩ := List.mem_filterMap.mp (List.mem_eraseDups.mp ht)
  split at hq
  · cases hq
  · split at htok
    · next t' heq =>
      obtain rfl := Option.some.inj htok
      exact (within_enumerate hgrammar halt hq).2 _ (by rw [heq]; simp)
    · cases htok

variable (contest maxK) in
/-- Before those already seen are dropped, every prefix has a token, and no token with a space. -/
theorem spaceless_of_prefixesUnder
    (hgrammar : ∀ p ∈ grammar.productions, ∀ alt ∈ p.alts, Adds tokens classSets Spaceless alt)
    {alt : Sequence} (halt : Adds tokens classSets Spaceless alt) (contested : List String)
    (rivals : List (List String)) :
    ∀ q ∈ (headsOf grammar tokens classSets alt).flatMap (prefixesUnder contest contested
      (deepPaths grammar tokens classSets maxK contested alt) rivals),
      q ≠ [] ∧ ∀ t ∈ q, Spaceless t := by
  intro q hq
  obtain ⟨h, hmem, hq⟩ := List.mem_flatMap.mp hq
  unfold prefixesUnder at hq
  split at hq
  · obtain rfl := List.mem_singleton.mp hq
    refine ⟨by simp, fun t ht => ?_⟩
    obtain rfl := List.mem_singleton.mp ht
    exact spaceless_of_headsOf hgrammar halt hmem
  · obtain ⟨path, hpath, rfl⟩ := List.mem_map.mp hq
    obtain ⟨hpath, hhead⟩ := List.mem_filter.mp hpath
    have hne : path ≠ [] := by
      rintro rfl
      simp at hhead
    obtain ⟨done, hwhole⟩ := whole_of_deep hpath
    have hpos := depthOf_pos contest hne rivals
    refine ⟨?_, fun t ht => (within_enumerate hgrammar halt hwhole).2 t (List.mem_of_mem_take ht)⟩
    simpa [hne] using hpos.ne'

/-! ### What selects has a prefix, and every prefix selects -/

section Prefixes

variable (hnd : grammar.names.Nodup) (hplain : Plain grammar)
  (hnamed : ∀ n set, classSets.lookup n = some set → n ∈ grammar.names) (hmaxK : 0 < maxK)
  (halts : ∀ alt ∈ alts, ∀ el ∈ alt, el.isTerminal = true ∨ el.isRef = true)
  (hlr : ∀ alt ∈ alts, NoLeftRecursion grammar tokens classSets alt)
  (hd : Dispatched grammar tokens classSets contest maxK exits alts contested deep out)

include hnd hplain hnamed hmaxK halts hlr hd

/-- **What selects an alternative has a prefix of it**, before those already seen are dropped. -/
theorem exists_prefixUnder {i : Nat} {alt : Sequence} (halt : alts[i]? = some alt)
    (cs : List String) {x : List String}
    (hx : Selects grammar tokens classSets contest maxK exits alts i alt x) :
    ∃ q ∈ (headsOf grammar tokens classSets alt).flatMap (prefixesUnder contest cs
      (deepPaths grammar tokens classSets maxK cs alt) ((deep.eraseIdx i).flatten ++ exits)),
      q <+: x := by
  obtain ⟨hne, hreads, hselects⟩ := hx
  have hmem := List.mem_of_getElem? halt
  obtain ⟨t, v, rfl⟩ := List.exists_cons_of_ne_nil hne
  have hhead := head_mem_headsOf hnd hplain (halts alt hmem) (hlr alt hmem) hreads
  by_cases hfree : t ∈ cs
  · -- a path that stops within the tokens, or goes past them and is cut where they tell it apart
    obtain ⟨q, hq, hqne, hqx, hcut⟩ : ∃ q ∈ enumerate grammar tokens classSets maxK (fun _ => true)
        alt, q.tokens ≠ [] ∧ (q.tokens <+: t :: v ∨ t :: v <+: q.tokens) ∧
          q.tokens.take (depthOf contest q.tokens ((deep.eraseIdx i).flatten ++ exits) 1) <+:
            t :: v := by
      rcases hselects with hstops | ⟨hothers, hexits⟩
      · obtain ⟨q, hq, hqne, hqx⟩ := exists_path_of_stopsAt hnd hplain (halts alt hmem)
          (hlr alt hmem) hmaxK hne hreads hstops
        exact ⟨q, hq, hqne, .inl hqx, (List.take_prefix _ _).trans hqx⟩
      · obtain ⟨q, hq, hqne, hqx⟩ := exists_path_of_readsUpTo hnd hplain (halts alt hmem)
          (hlr alt hmem) hmaxK hne hreads
        refine ⟨q, hq, hqne, hqx, ?_⟩
        rcases hqx with hqx | hxq
        · exact (List.take_prefix _ _).trans hqx
        refine List.prefix_of_prefix_length_le (List.take_prefix _ _) hxq ?_
        rw [List.length_take]
        refine (min_le_left _ _).trans (depthOf_le (by simp) fun r hr => ?_)
        refine differAt_of_isPrefix hxq ?_
        rcases List.mem_append.mp hr with hr | hr
        · obtain ⟨ps, hps, hr⟩ := List.mem_flatten.mp hr
          obtain ⟨j, hj, hps⟩ := List.mem_eraseIdx_iff_getElem?.mp hps
          obtain ⟨alt', cs', halt', rfl⟩ := hd.rivals j ps hps
          obtain ⟨done, hwhole⟩ := whole_of_deep hr
          obtain ⟨hread, hstop⟩ := readsUpTo_of_mem hplain hnamed
            (halts alt' (List.mem_of_getElem? halt')) hwhole
          exact hothers j alt' hj halt' r (ne_nil_of_deep hr) hread hstop
        · exact hexits r hr
    obtain ⟨a, ts, hts⟩ := List.exists_cons_of_ne_nil hqne
    obtain rfl : a = t := by
      rw [hts] at hqx
      rcases hqx with hqx | hqx
      · exact (List.cons_prefix_cons.mp hqx).1
      · exact (List.cons_prefix_cons.mp hqx).1.symm
    refine ⟨_, List.mem_flatMap.mpr ⟨a, hhead, ?_⟩, hcut⟩
    unfold prefixesUnder
    rw [if_neg (by simpa using hfree)]
    refine List.mem_map.mpr ⟨_, List.mem_filter.mpr ⟨mem_deepPaths hq hts hfree, ?_⟩, rfl⟩
    simp [hts]
  · refine ⟨[t], List.mem_flatMap.mpr ⟨t, hhead, ?_⟩, by simp⟩
    unfold prefixesUnder
    rw [if_pos (by simpa using hfree)]
    exact List.mem_singleton.mpr rfl

/-- **Every prefix selects its alternative**, when the contest of tokens is symmetric. -/
theorem Cut.selects (hcontest : ∀ a b, contest a b = contest b a) {i : Nat} {alt : Sequence}
    (halt : alts[i]? = some alt) {cs : List String} (hcs : contested[i]? = some cs)
    {x : List String} (hx : Cut grammar tokens classSets contest maxK cs
      ((deep.eraseIdx i).flatten ++ exits) alt x) :
    Selects grammar tokens classSets contest maxK exits alts i alt x := by
  have hmem := List.mem_of_getElem? halt
  have hhead : ∀ {j alt'}, alts[j]? = some alt' → ∀ {b : String} {y : List String},
      ReadsUpTo grammar tokens classSets alt' (b :: y) →
        b ∈ headsOf grammar tokens classSets alt' := fun halt' _ _ =>
    head_mem_headsOf hnd hplain (halts _ (List.mem_of_getElem? halt'))
      (hlr _ (List.mem_of_getElem? halt'))
  cases hx with
  | @head h hmemh hfree =>
    obtain ⟨q, hq, htokens⟩ := mem_headsOf.mp hmemh
    refine ⟨by simp, htokens ▸ (readsUpTo_of_mem hplain hnamed (halts alt hmem) hq).1, .inr ⟨?_, ?_⟩⟩
    · intro j alt' hj halt' y hy hread _
      obtain ⟨b, ys, rfl⟩ := List.exists_cons_of_ne_nil hy
      exact differ_of_free hd hj halt halt' hcs hmemh hfree ⟨b, rfl, hhead halt' hread⟩
    · intro e he
      obtain ⟨cs', hcs', hheads⟩ := hd.heads i alt halt
      obtain rfl : cs' = cs := by simpa [hcs'] using hcs
      obtain ⟨t, ht, hfalse⟩ := (contestedHeads_spec hheads _ hmemh hfree).2 e he
      exact differ_heads rfl ht hfalse
  | @path a p hmema hp hpa =>
    have hpne := ne_nil_of_deep hp
    obtain ⟨done, hwhole⟩ := whole_of_deep hp
    obtain ⟨hread, hstops⟩ := readsUpTo_of_mem hplain hnamed (halts alt hmem) hwhole
    have hpos := depthOf_pos contest hpne ((deep.eraseIdx i).flatten ++ exits)
    refine ⟨by simp [hpne, hpos.ne'], hread.of_isPrefix (List.take_prefix _ _), ?_⟩
    rcases depthOf_spec contest p ((deep.eraseIdx i).flatten ++ exits) 1 with hlen | ⟨-, hrivals⟩
    · rw [List.take_of_length_le hlen]
      exact .inl hstops
    · have hdiffer : ∀ r ∈ (deep.eraseIdx i).flatten ++ exits, Differ contest
          (p.take (depthOf contest p ((deep.eraseIdx i).flatten ++ exits) 1)) r := fun r hr => by
        obtain ⟨k, hk, hlt⟩ := hrivals r hr
        exact .take hk hlt
      refine .inr ⟨fun j alt' hj halt' y hy hread' hstops' => ?_,
        fun e he => hdiffer e (List.mem_append_right _ he)⟩
      have hmem' := List.mem_of_getElem? halt'
      obtain ⟨r, hr, hrne, hry⟩ := exists_path_of_stopsAt hnd hplain (halts alt' hmem')
        (hlr alt' hmem') hmaxK hy hread' hstops'
      obtain ⟨b, ts, hts⟩ := List.exists_cons_of_ne_nil hrne
      obtain ⟨cs', hcs', -⟩ := hd.heads j alt' halt'
      refine Differ.of_isPrefix ?_ hry
      by_cases hb : b ∈ cs'
      · exact hdiffer _ (mem_rivals hd hj halt' hcs' (mem_deepPaths hr hts hb))
      · -- a head of the other alternative that is not contested meets no head of this one
        have hbhead : b ∈ headsOf grammar tokens classSets alt' := by
          refine hhead halt' (y := ts) ?_
          rw [← hts]
          exact (readsUpTo_of_mem hplain hnamed (halts alt' hmem') hr).1
        obtain ⟨k, b', a', hb', ha', hab⟩ := differ_of_free hd hj.symm halt' halt hcs' hbhead hb
          (q := p) ⟨a, hpa, hmema⟩
        obtain rfl : k = 0 := by
          have hlt := (List.getElem?_eq_some_iff.mp hb').1
          simpa using hlt
        refine ⟨0, a', b', ?_, ?_, by rw [hcontest]; exact hab⟩
        · rw [List.getElem?_take_of_lt hpos, ha']
        · rw [hts]
          exact hb'

end Prefixes

variable (grammar tokens classSets contest maxK exits alts) in
/-- A string that may take the separator of a tail repeat within the window begins with tokens that
select the alternative. -/
def RepeatsSelect (i : Nat) (alt : Sequence) : Prop :=
  ∀ w, RepeatsBehind grammar tokens classSets alt w → w.length < maxK →
    ∀ u ∈ tailSeq grammar tokens classSets alt, w <+: u → u ≠ [] →
      ∃ x, x <+: u ∧ Selects grammar tokens classSets contest maxK exits alts i alt x

/-- What the alternatives derive selects, and so does what agrees with them as far as the window. -/
theorem RepeatsSelect.of_mem (hplain : Plain grammar) {i : Nat} {alt : Sequence}
    (halt : ∀ el ∈ alt, el.isTerminal = true ∨ el.isRef = true) (hmaxK : 0 < maxK)
    (h : RepeatsSelect grammar tokens classSets contest maxK exits alts i alt) {u : List String}
    (hu : u ∈ tailSeq grammar tokens classSets alt) (hne : u ≠ []) :
    ∃ x, x <+: u ∧ Selects grammar tokens classSets contest maxK exits alts i alt x := by
  have hwhole : ∀ {v}, v ∈ altsSeq grammar tokens classSets alt → ∀ {w}, w <+: v →
      ReadsUpTo grammar tokens classSets alt w := fun hv _ hw =>
    .before (List.append_nil alt).symm hv hw
  obtain ⟨v, hv, rfl | ⟨w, hw, hwu, hwv⟩⟩ := tailSeq_le_agreeing hplain halt hu
  · exact ⟨u, List.prefix_rfl, hne, hwhole hv List.prefix_rfl, .inl (.inr (.inl hv))⟩
  · by_cases hlen : w.length < maxK
    · exact h w hw hlen u hu hwu hne
    · have hw' : w ≠ [] := by
        rintro rfl
        exact hlen hmaxK
      exact ⟨w, hwu, hw', hwhole hv hwv, .inl (.inl (Nat.le_of_not_lt hlen))⟩

end Result

end

/-- **The dispatch prefixes cover**: every string of an alternative begins with one just when those
that take a separator within the window begin with tokens that select it. -/
theorem Compile.dispatchPrefixes_covers {S : Setting} {grammar : Grammar} (c : Compile S grammar)
    {tokens : Tokens} {contest : String → String → Bool} {maxK : Nat} {exits : List (List String)}
    (hspaceless : ∀ p ∈ c.desugared.productions, ∀ alt ∈ p.alts,
      Adds tokens c.classSets Spaceless alt) (hmaxK : 0 < maxK) {p : Production}
    (hp : p ∈ c.desugared.productions)
    (hlr : ∀ alt ∈ p.alts, NoLeftRecursion c.desugared tokens c.classSets alt)
    {out : List DispatchPrefixes}
    (h : dispatchPrefixes c.desugared tokens c.classSets contest maxK exits p.alts = some out)
    {i : Nat} {d : DispatchPrefixes} (hout : out[i]? = some d) {alt : Sequence}
    (halt : p.alts[i]? = some alt) :
    let covered := ∀ u ∈ tailSeq c.desugared tokens c.classSets alt, u ≠ [] →
      ∃ q ∈ d.prefixes, q <+: u
    let selected :=
      RepeatsSelect c.desugared tokens c.classSets contest maxK exits p.alts i alt
    (selected → covered) ∧ ((∀ a b, contest a b = contest b a) → covered → selected) := by
  intro covered selected
  have hplain := c.desugared_shape.plain
  have halts := hplain p hp
  have hmem := List.mem_of_getElem? halt
  obtain ⟨contested, deep, hd⟩ := dispatchPrefixes_spec h
  constructor
  · intro hselect u hu hne
    obtain ⟨x, hxu, hx⟩ := hselect.of_mem hplain (halts alt hmem) hmaxK hu hne
    obtain ⟨alt', cs, halt', -, hprefixes⟩ := hd.prefixes i d hout
    obtain rfl : alt = alt' := by simpa [halt] using halt'
    obtain ⟨q, hq, hqx⟩ := exists_prefixUnder c.desugared_nodup hplain
      (fun _ _ => c.classSets_named) hmaxK halts hlr hd halt cs hx
    have hall := spaceless_of_prefixesUnder contest maxK hspaceless (hspaceless p hp alt hmem) cs
      ((deep.eraseIdx i).flatten ++ exits)
    rcases mem_or_seen (hall q hq).1 (hall q hq).2 hall hq with hkept | hseen
    · exact ⟨q, hprefixes ▸ hkept, hqx.trans hxu⟩
    · cases hseen
  · intro hcontest hcovered w _ _ u hu _ hne
    obtain ⟨q, hq, hqu⟩ := hcovered u hu hne
    obtain ⟨alt', cs, halt', hcs, hcut⟩ := hd.cuts i d hout
    obtain rfl : alt = alt' := by simpa [halt] using halt'
    exact ⟨q, hqu, (hcut q hq).selects c.desugared_nodup hplain (fun _ _ => c.classSets_named)
      hmaxK halts hlr hd hcontest halt hcs⟩

/-! ## A list behind a keyword -/

section

variable {grammar : Grammar} {tokens : Tokens} {classSets : List (String × String)}

/-- Terminals derive their tokens. -/
theorem eq_of_mem_altsSeq : ∀ {α : Sequence}, (∀ el ∈ α, el.isTerminal = true) →
    ∀ {w : List String}, w ∈ altsSeq grammar tokens classSets α → w = α.map tokens.name
  | [], _, w, hw => hw
  | el :: α, hα, w, hw => by
    obtain ⟨hel, hα⟩ := List.forall_mem_cons.mp hα
    unfold altsSeq at hw
    rw [Cf.seq_cons, den_terminal hel] at hw
    obtain ⟨a, ha, b, hb, rfl⟩ := Language.mem_mul.mp hw
    obtain rfl : a = [tokens.name el] := ha
    rw [eq_of_mem_altsSeq hα hb]
    rfl

theorem mem_altsSeq_terminals {α : Sequence} (hα : ∀ el ∈ α, el.isTerminal = true) :
    α.map tokens.name ∈ altsSeq grammar tokens classSets α :=
  SpellsTokens.mem_seq ⟨hα, rfl⟩ _

/-- A name is referred to by the first element, or behind what that derives. -/
theorem RefersTo.cons_cases {el : Element} {β : Sequence} {w : List String} {m : String}
    (h : RefersTo grammar tokens classSets (el :: β) w m) :
    w = [] ∧ el.refName = some m ∨
      ∃ a w', w = a ++ w' ∧ a ∈ den (tokenLeaf tokens) (altsLang grammar tokens classSets) el ∧
        RefersTo grammar tokens classSets β w' m := by
  obtain ⟨u, x, v, heq, hx, hw⟩ := h
  cases u with
  | nil =>
    obtain ⟨rfl, -⟩ := List.cons.inj heq
    exact .inl ⟨hw, hx⟩
  | cons y u =>
    obtain ⟨rfl, rfl⟩ := List.cons.inj heq
    unfold altsSeq at hw
    rw [Cf.seq_cons] at hw
    obtain ⟨a, ha, w', hw', rfl⟩ := Language.mem_mul.mp hw
    exact .inr ⟨a, w', rfl, ha, u, x, v, rfl, hx, hw'⟩

theorem not_refersTo_terminals {α : Sequence} (hα : ∀ el ∈ α, el.isTerminal = true)
    {w : List String} {m : String} : ¬ RefersTo grammar tokens classSets α w m := by
  intro h
  obtain ⟨el, hel, hm⟩ := h.mem
  obtain ⟨debt, sp, rfl⟩ := Element.refName_eq_some.mp hm
  exact absurd (hα _ hel) (by simp [Element.isTerminal])

theorem not_leadsTo_terminals {α : Sequence} (hα : ∀ el ∈ α, el.isTerminal = true)
    {w : List String} {m : String} : ¬ LeadsTo grammar tokens classSets α w m := by
  intro h
  cases h with
  | here h => exact not_refersTo_terminals hα h
  | within h => exact not_refersTo_terminals hα h

/-- Of terminals the enumeration stops at all of them, short of its window. -/
theorem eq_of_stopsAt_terminals {α : Sequence} (hα : ∀ el ∈ α, el.isTerminal = true) {k : Nat}
    (hk : α.length < k) {x : List String} (hreads : ReadsUpTo grammar tokens classSets α x)
    (hstops : StopsAt grammar tokens classSets k α x) : x = α.map tokens.name := by
  rcases hstops with hfull | hwhole | hcut
  · cases hreads with
    | @before _ u v w _ hsplit hw hx =>
      have hu : ∀ el ∈ u, el.isTerminal = true := fun el hel =>
        hα el (hsplit ▸ List.mem_append_left v hel)
      have hlen := hx.length_le
      rw [eq_of_mem_altsSeq hu hw, List.length_map] at hlen
      rw [hsplit, List.length_append] at hk
      omega
    | within h => exact absurd h (not_refersTo_terminals hα)
  · exact eq_of_mem_altsSeq hα hwhole
  · cases hcut with
    | stuck h => exact absurd h (not_leadsTo_terminals hα)
    | back h => exact absurd h (not_leadsTo_terminals hα)

/-- A sequence that begins with a terminal is not left-recursive. -/
theorem noLeftRecursion_of_terminal {el : Element} (hel : el.isTerminal = true) (α : Sequence) :
    NoLeftRecursion grammar tokens classSets (el :: α) := by
  rintro c n ⟨u, x, v, heq, hx, hu⟩
  cases u with
  | nil =>
    obtain ⟨rfl, -⟩ := List.cons.inj heq
    obtain ⟨debt, sp, rfl⟩ := Element.refName_eq_some.mp hx
    simp [Element.isTerminal] at hel
  | cons y u =>
    obtain ⟨rfl, -⟩ := List.cons.inj heq
    have hnil := hu el List.mem_cons_self
    rw [den_terminal hel] at hnil
    cases hnil

end

/-- `P = "k" X "c" / <rival>`, and `X`. -/
def keywordList (rival : Sequence) (x : Sequence) (tail : Option TailRepeatSpec) : Grammar where
  productions := [
    { name := "P", alts := [[.lit "k", .reference "X", .lit "c"], rival] },
    { name := "X", alts := [x], tailRepeat := tail }]

/-- `X = "a" [ "," X ]`. -/
def keywordItems : Sequence := [.lit "a", .opt (.group [[.lit ",", .reference "X"]] none) none]

/-- The tokens of `keywordList`. -/
def keywordListTokens : Tokens where
  literals := [("ci:k", "#K"), ("ci:a", "#A"), ("ci:b", "#B"), ("ci:c", "#C"), ("ci:d", "#D"),
    ("cs:,", "#CA")]

/-- `P = "k" X "c" / "k" "b"`. -/
def toldCompile : Compile plainSetting (keywordList [.lit "k", .lit "b"] keywordItems none) :=
  .leftAlone (keywordList [.lit "k", .lit "b"] [.lit "a"] (some ⟨[.lit ","]⟩)) "P" 3

/-- In `"k" X "c"` the name `X` is met behind `k` alone, whose list has one item before its
separator. -/
theorem repeatsBehind_keywordList {rival : Sequence} {w : List String}
    (h : RepeatsBehind (keywordList rival [.lit "a"] (some ⟨[.lit ","]⟩)) keywordListTokens []
      [.lit "k", .reference "X", .lit "c"] w) : w = ["#K", "#A"] := by
  have hitem : ∀ el ∈ [Element.lit "a"], el.isTerminal = true := by
    simp [Element.lit, Element.isTerminal]
  have hlast : ∀ el ∈ [Element.lit "c"], el.isTerminal = true := by
    simp [Element.lit, Element.isTerminal]
  have hrefers : ∀ {w m}, RefersTo (keywordList rival [.lit "a"] (some ⟨[.lit ","]⟩))
      keywordListTokens [] [.lit "k", .reference "X", .lit "c"] w m → w = ["#K"] ∧ m = "X" := by
    intro w m h
    obtain ⟨-, hk⟩ | ⟨a, w, rfl, ha, hrest⟩ := h.cons_cases
    · cases hk
    rw [den_terminal rfl] at ha
    obtain rfl : a = ["#K"] := ha
    obtain ⟨rfl, hx⟩ | ⟨_, _, -, -, hnone⟩ := hrest.cons_cases
    · exact ⟨rfl, (Option.some.inj hx).symm⟩
    · exact absurd hnone (not_refersTo_terminals hlast)
  obtain ⟨w₁, w₂, p, hlead, hp, -, htail, ⟨alt, halt, hw₂⟩, rfl⟩ := h
  obtain rfl | rfl : p = _ ∨ p = _ := by simpa [keywordList] using hp
  · cases htail
  obtain rfl := List.mem_singleton.mp halt
  rw [eq_of_mem_altsSeq hitem hw₂]
  cases hlead with
  | here h => rw [(hrefers h).1]; rfl
  | @within _ alt w x q _ h hq _ halt hx =>
    have hname := (hrefers h).2
    obtain rfl | rfl : q = _ ∨ q = _ := by simpa [keywordList] using hq
    · exact absurd (show "P" = "X" from hname) (by decide)
    · obtain rfl := List.mem_singleton.mp halt
      exact absurd hx (not_leadsTo_terminals hitem)

/-- The separator comes when `k a` has told the alternatives apart. -/
theorem dispatchPrefixes_covers_told :
    RepeatsSelect toldCompile.desugared keywordListTokens toldCompile.classSets (· == ·) 4 []
        toldCompile.desugared.productions[0].alts 0 [.lit "k", .reference "X", .lit "c"] ∧
      ∀ u ∈ tailSeq toldCompile.desugared keywordListTokens toldCompile.classSets
        [.lit "k", .reference "X", .lit "c"], u ≠ [] → ∃ q ∈ [["#K", "#A"]], q <+: u := by
  have hrun : dispatchPrefixes toldCompile.desugared keywordListTokens toldCompile.classSets
      (· == ·) 4 [] toldCompile.desugared.productions[0].alts =
        some [⟨[["#K", "#A"]], false⟩, ⟨[["#K", "#B"]], false⟩] := by decide +kernel
  have hrival : ∀ el ∈ [Element.lit "k", .lit "b"], el.isTerminal = true := by
    simp [Element.lit, Element.isTerminal]
  have hwhole : ["#K", "#A", "#C"] ∈ altsSeq toldCompile.desugared keywordListTokens
      toldCompile.classSets [.lit "k", .reference "X", .lit "c"] := by
    have hx : ["#A"] ∈ altsLang toldCompile.desugared keywordListTokens toldCompile.classSets
        "X" := mem_altsLang (p := toldCompile.desugared.productions[1])
      (List.mem_cons_of_mem _ List.mem_cons_self) rfl List.mem_cons_self
      (mem_altsSeq_terminals (α := [.lit "a"]) (by simp [Element.lit, Element.isTerminal]))
    refine mem_altsSeq_append (u := [.lit "k"]) (w := ["#K"])
      (mem_altsSeq_terminals (by simp [Element.lit, Element.isTerminal])) ?_
    refine mem_altsSeq_cons (a := ["#A"]) (by rw [Element.reference, den_ref]; exact hx) ?_
    exact mem_altsSeq_terminals (α := [.lit "c"]) (by simp [Element.lit, Element.isTerminal])
  have hselect : RepeatsSelect toldCompile.desugared keywordListTokens toldCompile.classSets
      (· == ·) 4 [] toldCompile.desugared.productions[0].alts 0
      [.lit "k", .reference "X", .lit "c"] := by
    intro w hw _ u _ hwu _
    obtain rfl := repeatsBehind_keywordList hw
    refine ⟨["#K", "#A"], hwu, by simp, .before (List.append_nil _).symm hwhole ⟨["#C"], rfl⟩,
      .inr ⟨fun j alt hj halt y _ hreads hstops => ?_, by simp⟩⟩
    obtain _ | _ | j := j
    · exact absurd rfl hj
    · obtain rfl : alt = [.lit "k", .lit "b"] := (Option.some.inj halt).symm
      rw [eq_of_stopsAt_terminals hrival (by decide) hreads hstops]
      exact ⟨1, "#A", "#B", rfl, by decide, by decide⟩
    · cases halt
  refine ⟨hselect, (toldCompile.dispatchPrefixes_covers
    (p := toldCompile.desugared.productions[0]) (i := 0) ?_ (by decide) List.mem_cons_self ?_ hrun
    rfl rfl).1 hselect⟩
  · show ∀ p ∈ (keywordList [.lit "k", .lit "b"] [.lit "a"] (some ⟨[.lit ","]⟩)).productions,
      ∀ alt ∈ p.alts, Adds keywordListTokens [] Spaceless alt
    have hnames : ∀ l ∈ ["k", "a", "b", "c"],
        ' ' ∉ (keywordListTokens.name (.term l none none none)).toList := by decide +kernel
    simp only [List.forall_mem_cons] at hnames
    simp [keywordList, Adds, addedToken, Spaceless, hnames, Element.reference, Element.lit]
  · intro alt halt
    rcases List.mem_pair.mp halt with rfl | rfl
    · exact noLeftRecursion_of_terminal rfl _
    · exact noLeftRecursion_of_terminal rfl _

/-- `P = "k" X "c" / "k" "a" "d"`. -/
def missedCompile :
    Compile plainSetting (keywordList [.lit "k", .lit "a", .lit "d"] keywordItems none) :=
  .leftAlone (keywordList [.lit "k", .lit "a", .lit "d"] [.lit "a"] (some ⟨[.lit ","]⟩)) "P" 3

/-- The alternative `"k" X "c"` derives `k a , a c`, and no entry of `P` lets it through. -/
theorem dispatchPrefixes_misses_separator :
    ((emitRules "bnf" (missedCompile.emitter keywordListTokens apartContest [] []) "P").toOption.bind
        (·.lookup "P")).map (fun rule => rule.opens.map AltSpec.s) =
      some [["#K", "#A", "#C"], ["#K", "#A", "#D"]] ∧
    ∃ d d', dispatchPrefixes missedCompile.desugared keywordListTokens missedCompile.classSets
        apartContest.headsContest 4 [] missedCompile.desugared.productions[0].alts = some [d, d'] ∧
      ["#K", "#A", "#CA", "#A", "#C"] ∈ tailSeq missedCompile.desugared keywordListTokens
        missedCompile.classSets [.lit "k", .reference "X", .lit "c"] ∧
      ∀ q ∈ d.prefixes ++ d'.prefixes, ∀ context,
        ¬ q <+: ["#K", "#A", "#CA", "#A", "#C"] ++ context := by
  have hx : ["#A", "#CA", "#A"] ∈ tailLang missedCompile.desugared keywordListTokens
      missedCompile.classSets "X" := by
    refine mem_tailLang (p := missedCompile.desugared.productions[1])
      (List.mem_cons_of_mem _ List.mem_cons_self) rfl ?_
    refine mem_altsDen.mpr ⟨_, List.mem_singleton.mpr rfl, ?_⟩
    change _ ∈ Cf.seq _ [Element.lit "a",
      Element.star (.group [[.lit ",", .lit "a"]] none) none none]
    rw [Cf.seq_cons, Cf.seq_singleton, den_star, den_terminal rfl]
    refine Language.mem_mul.mpr ⟨["#A"], rfl, ["#CA", "#A"], ?_, rfl⟩
    refine Language.mem_kstar.mpr ⟨[["#CA", "#A"]], rfl, fun w hw => ?_⟩
    obtain rfl := List.mem_singleton.mp hw
    simp only [den_group, altsDen_cons, altsDen_nil, add_zero, Cf.seq_cons, Cf.seq_nil, mul_one]
    rw [den_terminal rfl, den_terminal rfl]
    exact Language.mem_mul.mpr ⟨["#CA"], rfl, ["#A"], rfl, rfl⟩
  refine ⟨by decide +kernel, ⟨[["#K", "#A", "#C"]], false⟩, ⟨[["#K", "#A", "#D"]], false⟩,
    by decide +kernel, ?_, by simp⟩
  unfold tailSeq
  rw [Cf.seq_cons, Cf.seq_cons, Cf.seq_singleton, Element.reference, den_ref, den_terminal rfl,
    den_terminal rfl]
  exact Language.mem_mul.mpr ⟨["#K"], rfl, _, Language.append_mem_mul hx rfl, rfl⟩

end TabnasBnf
