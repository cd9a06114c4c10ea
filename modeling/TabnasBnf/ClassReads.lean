import TabnasBnf.ClassDialect

/-!
# A class read as the regex crate reads it

`singleCodePointRanges` against the language of the pattern, in any dialect with the documented
properties (`ClassDialect`).

* `body_of_classRanges`: what the scanner of `patternCharRanges` makes of a class, member by member:
  its members, up to its bracket, a class inside or an operator it takes for members.
* `classRanges_dashes`: it takes three dashes that open a class for a range, which changes nothing,
  and two before a member for the beginning of one.
* **`singleCodePointRanges_iff`**: the coverage is exact but for those two.
* `singleCodePointRanges_operator`: on `[a&&b]` it is not.
-/

namespace TabnasBnf

/-! ## Members -/

theorem Escape.head {text : List Char} {cp : Nat} (h : Escape text cp) :
    ∃ rest, text = '\\' :: rest := by
  cases h <;> exact ⟨_, rfl⟩

theorem isScalar_toNat (c : Char) : isScalar c.toNat = true := by
  have hvalid : c.toNat < 0xD800 ∨ 0xDFFF < c.toNat ∧ c.toNat < 0x110000 := c.valid
  unfold isScalar maxCodePoint
  rw [Bool.or_eq_true, Bool.and_eq_true, decide_eq_true_eq, decide_eq_true_eq, decide_eq_true_eq]
  omega

theorem Escape.isScalar {text : List Char} {cp : Nat} (h : Escape text cp) :
    isScalar cp = true := by
  cases h with
  | punctuation => exact isScalar_toNat _
  | bell => decide
  | digits _ h => exact h.2.2
  | braces _ _ h => exact h.2.2

theorem ClassMember.isScalar {text : List Char} {cp : Nat} (h : ClassMember text cp) :
    isScalar cp = true := by
  cases h with
  | char => exact isScalar_toNat _
  | escape h => exact h.isScalar

theorem readOne_cons (c : Char) (rest : List Char) :
    readOne (c :: rest) = if c ≠ '\\' then some (c.toNat, rest)
      else (readEscape (c :: rest)).map fun (n, cp) => (cp, (c :: rest).drop n) := rfl

theorem RangeEnd.isScalar {text : List Char} {cp : Nat} (h : RangeEnd text cp) :
    isScalar cp = true := by
  cases h with
  | member h => exact h.isScalar
  | bracket => decide

/-- A member is read up to what follows it. -/
theorem ClassMember.readOne {text : List Char} {cp : Nat} (h : ClassMember text cp)
    (more : List Char) :
    readOne (text ++ more) = some (cp, more) := by
  cases h with
  | @char c hc =>
    have hplain : c ≠ '\\' := fun heq => hc (heq ▸ List.mem_cons_self)
    exact (readOne_cons c more).trans (if_pos hplain)
  | escape h =>
    have hread := readEscape_append more h.readEscape
    obtain ⟨rest, rfl⟩ := h.head
    rw [List.cons_append] at hread ⊢
    rw [readOne_cons, if_neg (by simp), hread]
    simp

/-- What is read of a text is a member, or a bracket. -/
theorem member_of_readOne {c : Char} {chars rest : List Char} {cp : Nat}
    (h : readOne (c :: chars) = some (cp, rest)) :
    ∃ text, c :: chars = text ++ rest ∧ text.head? = some c ∧
      (ClassMember text cp ∨ (c = '[' ∨ c = ']') ∧ text = [c] ∧ cp = c.toNat) := by
  rw [readOne_cons] at h
  split at h
  · next hplain =>
    cases h
    refine ⟨[c], rfl, rfl, ?_⟩
    by_cases hbracket : c = '[' ∨ c = ']'
    · exact .inr ⟨hbracket, rfl, rfl⟩
    · exact .inl (.char (by simpa [hplain] using hbracket))
  · next hescape =>
    obtain rfl : c = '\\' := by simpa using hescape
    obtain ⟨⟨n, cp'⟩, hread, heq⟩ := Option.map_eq_some_iff.mp h
    cases heq
    obtain ⟨text, more, hsplit, rfl, hescaped⟩ := escape_of_readEscape hread
    refine ⟨text, ?_, ?_, .inl (.escape hescaped)⟩
    · rw [hsplit, List.drop_left]
    · obtain ⟨rest, rfl⟩ := hescaped.head
      rfl

theorem classBodyEnd_char {c : Char} (h : c ≠ '\\' ∧ c ≠ ']') (more : List Char) (i : Nat) :
    classBodyEnd (c :: more) i = classBodyEnd more (i + 1) := by
  rw [classBodyEnd]
  · exact h.2
  · exact fun _ _ heq _ => h.1 heq

theorem classBodyEnd_plain {l : List Char} (h : ∀ c ∈ l, c ≠ '\\' ∧ c ≠ ']') (more : List Char)
    (i : Nat) : classBodyEnd (l ++ more) i = classBodyEnd more (i + l.length) := by
  induction l generalizing i with
  | nil => rfl
  | cons c l ih =>
    obtain ⟨hc, hl⟩ := List.forall_mem_cons.mp h
    rw [List.cons_append, classBodyEnd_char hc, ih hl, List.length_cons]
    congr 1
    omega

theorem hexDigit_plain {d : Char} {n : Nat} (h : hexDigit d = some n) : d ≠ '\\' ∧ d ≠ ']' := by
  constructor <;> rintro rfl <;> cases h

theorem Spells.plain {digits : List Char} {cp : Nat} (h : Spells digits cp) :
    ∀ d ∈ digits, d ≠ '\\' ∧ d ≠ ']' := by
  obtain ⟨-, ⟨values, hvalues, -⟩, -⟩ := h
  clear cp
  induction digits generalizing values with
  | nil => simp
  | cons d ds ih =>
    rw [List.mapM_cons] at hvalues
    obtain ⟨v, hv, hvalues⟩ := Option.bind_eq_some_iff.mp hvalues
    obtain ⟨vs, hvs, -⟩ := Option.bind_eq_some_iff.mp hvalues
    exact List.forall_mem_cons.mpr ⟨hexDigit_plain hv, ih vs hvs⟩

/-- The end of a class does not lie in a member. -/
theorem ClassMember.classBodyEnd {text : List Char} {cp : Nat} (h : ClassMember text cp)
    (more : List Char)
    (i : Nat) : classBodyEnd (text ++ more) i = classBodyEnd more (i + text.length) := by
  cases h with
  | @char c hc =>
    refine classBodyEnd_plain (l := [c]) ?_ more i
    simp only [List.mem_cons, List.not_mem_nil, not_or] at hc
    simp [hc]
  | escape h =>
    have hskip : ∀ (m : Char) (l : List Char), (∀ d ∈ l, d ≠ '\\' ∧ d ≠ ']') →
        TabnasBnf.classBodyEnd ('\\' :: m :: l ++ more) i =
          TabnasBnf.classBodyEnd more (i + ('\\' :: m :: l).length) := by
      intro m l hl
      show TabnasBnf.classBodyEnd (l ++ more) (i + 2) = _
      rw [classBodyEnd_plain hl, List.length_cons, List.length_cons]
      congr 1
      omega
    cases h with
    | punctuation => exact hskip _ [] (by simp)
    | bell => exact hskip _ [] (by simp)
    | digits _ h => exact hskip _ _ h.plain
    | braces _ _ h =>
      refine hskip _ _ fun d hd => ?_
      rcases List.mem_cons.mp hd with rfl | hd
      · decide
      · rcases List.mem_append.mp hd with hd | hd
        · exact h.plain d hd
        · rw [List.mem_singleton.mp hd]
          decide

theorem RangeEnd.classBodyEnd {text : List Char} {cp : Nat} (h : RangeEnd text cp)
    (more : List Char) (i : Nat) :
    classBodyEnd (text ++ more) i = classBodyEnd more (i + text.length) := by
  cases h with
  | member h => exact h.classBodyEnd more i
  | bracket => exact classBodyEnd_char (by decide) more i

/-! ## The scanner of a class -/

/-- A surrogate, which no string holds. -/
def Surrogate (r : CharRange) : Prop := ∃ u, r = (u, u) ∧ 0xD800 ≤ u ∧ u ≤ 0xDFFF

/-- An astral member is read as two surrogates beside it. -/
theorem surrogate_of_splitUnits {flags : String} {raw : Bool} {cp : Nat}
    (hcp : isScalar cp = true) {r : CharRange} (hr : r ∈ splitUnits flags raw cp) :
    Surrogate r := by
  unfold splitUnits at hr
  split at hr
  · unfold isScalar maxCodePoint at hcp
    simp only [List.mem_cons, List.not_mem_nil, or_false, Bool.or_eq_true, Bool.and_eq_true,
      decide_eq_true_eq] at hr hcp
    rcases hr with rfl | rfl
    · exact ⟨_, rfl, by omega, by omega⟩
    · exact ⟨_, rfl, by omega, by omega⟩
  · cases hr

/-- Ranges with surrogates beside them. -/
structure Woven (items made : List CharRange) : Prop where
  sub : ∀ r ∈ items, r ∈ made
  rest : ∀ r ∈ made, r ∈ items ∨ Surrogate r

theorem Woven.nil : Woven [] [] := ⟨fun _ h => h, fun _ h => .inl h⟩

theorem Woven.cons {items made units : List CharRange} (h : Woven items made) (r : CharRange)
    (hunits : ∀ r ∈ units, Surrogate r) :
    Woven (r :: items) (units ++ [r] ++ made) where
  sub := by
    rintro x hx
    rcases List.mem_cons.mp hx with rfl | hx
    · simp
    · exact List.mem_append_right _ (h.sub x hx)
  rest := by
    intro x hx
    rcases List.mem_append.mp hx with hx | hx
    · rcases List.mem_append.mp hx with hx | hx
      · exact .inr (hunits x hx)
      · exact .inl (List.mem_singleton.mp hx ▸ List.mem_cons_self)
    · exact (h.rest x hx).imp_left (List.mem_cons_of_mem _)

/-- What the scanner makes of a body, after the ranges `acc`: its members; or the body has a class
inside, whose bracket is its last; or an operator. -/
def Scanned (acc R : List CharRange) (body : List Char) : Prop :=
  (∃ items made, Reads body items [] ∧ R = acc ++ made ∧ Woven items made) ∨
    (∃ items rest i, Reads body items ('[' :: rest) ∧
      classBodyEnd (rest ++ [']']) i = some (i + (rest.length + 1))) ∨
    ∃ items rest, Reads body items rest ∧ startsOperator rest = true

theorem Scanned.one {acc R units : List CharRange} {text body : List Char} {cp : Nat}
    (h : Scanned (acc ++ units ++ [(cp, cp)]) R body) (htext : ClassMember text cp)
    (hop : startsOperator (text ++ body) = false) (hdash : ∀ c, ['-', c] <+: body → c = '-')
    (hunits : ∀ r ∈ units, Surrogate r) : Scanned acc R (text ++ body) := by
  rcases h with ⟨items, made, hreads, hR, hwoven⟩ | ⟨items, rest, i, hreads, hend⟩ |
    ⟨items, rest, hreads, hrest⟩
  · exact .inl ⟨_, _, .one htext hop hdash hreads, by simpa using hR, hwoven.cons _ hunits⟩
  · exact .inr (.inl ⟨_, rest, i, .one htext hop hdash hreads, hend⟩)
  · exact .inr (.inr ⟨_, rest, .one htext hop hdash hreads, hrest⟩)

theorem Scanned.range {acc R units : List CharRange} {text last body : List Char} {lo hi : Nat}
    (h : Scanned (acc ++ units ++ [(lo, hi)]) R body) (htext : ClassMember text lo)
    (hop : startsOperator (text ++ '-' :: (last ++ body)) = false) (hlast : RangeEnd last hi)
    (hunits : ∀ r ∈ units, Surrogate r) :
    Scanned acc R (text ++ '-' :: (last ++ body)) := by
  rcases h with ⟨items, made, hreads, hR, hwoven⟩ | ⟨items, rest, i, hreads, hend⟩ |
    ⟨items, rest, hreads, hrest⟩
  · exact .inl ⟨_, _, .range htext hop hlast hreads, by simpa using hR, hwoven.cons _ hunits⟩
  · exact .inr (.inl ⟨_, rest, i, .range htext hop hlast hreads, hend⟩)
  · exact .inr (.inr ⟨_, rest, .range htext hop hlast hreads, hrest⟩)

/-- A class ends with its bracket. -/
theorem exists_body {chars : List Char} {i : Nat}
    (h : classBodyEnd chars i = some (i + chars.length)) : ∃ body, chars = body ++ [']'] := by
  induction chars, i using classBodyEnd.induct with
  | case1 i => cases h
  | case2 rest i =>
    have hrest : rest = [] := by
      rw [classBodyEnd, List.length_cons] at h
      exact List.length_eq_zero_iff.mp (by have := Option.some.inj h; omega)
    exact ⟨[], by rw [hrest]; rfl⟩
  | case3 c rest i ih =>
    rw [classBodyEnd, List.length_cons, List.length_cons] at h
    obtain ⟨body, rfl⟩ := ih (h.trans (by congr 1; omega))
    exact ⟨'\\' :: c :: body, rfl⟩
  | case4 c rest i hclose hescape ih =>
    rw [classBodyEnd, List.length_cons] at h
    · obtain ⟨body, rfl⟩ := ih (h.trans (by congr 1; omega))
      exact ⟨c :: body, rfl⟩
    · exact hclose
    · exact hescape

/-- No operator ends in the bracket of the class. -/
theorem startsOperator_body (body : List Char) :
    startsOperator (body ++ [']']) = startsOperator body := by
  match body with
  | [] => rfl
  | [c] => simp [startsOperator, classOperators, List.isPrefixOf]
  | _ :: _ :: _ => simp [startsOperator, classOperators, List.isPrefixOf]

theorem startsOperator_append {l : List Char} (more : List Char) (h : startsOperator l = true) :
    startsOperator (l ++ more) = true := by
  obtain ⟨op, hop, hl⟩ := List.any_eq_true.mp h
  refine List.any_eq_true.mpr ⟨op, hop, ?_⟩
  exact List.isPrefixOf_iff_prefix.mpr
    ((List.isPrefixOf_iff_prefix.mp hl).trans (List.prefix_append l more))

theorem classRanges_bracket (flags : String) (fuel : Nat) (rest : List Char)
    (acc : List CharRange) : classRanges flags fuel (']' :: rest) acc = some acc := by
  cases fuel <;> rfl

theorem classRanges_cons (flags : String) (fuel : Nat) {c : Char} (hc : c ≠ ']')
    (rest : List Char) (acc : List CharRange) :
    classRanges flags (fuel + 1) (c :: rest) acc = (do
      let (lo, rest) ← readOne (c :: rest)
      let acc := acc ++ splitUnits flags (c != '\\') lo
      match rest with
      | '-' :: d :: rest' =>
        if d != ']' then
          let (hi, rest') ← readOne (d :: rest')
          classRanges flags fuel rest' (acc ++ splitUnits flags (d != '\\') hi ++ [(lo, hi)])
        else classRanges flags fuel rest (acc ++ [(lo, lo)])
      | _ => classRanges flags fuel rest (acc ++ [(lo, lo)])) :=
  classRanges.eq_4 flags acc fuel c rest hc

theorem classRanges_zero (flags : String) {c : Char} (hc : c ≠ ']') (rest : List Char)
    (acc : List CharRange) : classRanges flags 0 (c :: rest) acc = none := by
  rw [classRanges]
  exact hc

theorem scanned_bracket {flags : String} {fuel i : Nat} {rest : List Char} {acc R : List CharRange}
    (h : classRanges flags fuel (']' :: rest) acc = some R)
    (hend : classBodyEnd (']' :: rest) i = some (i + (']' :: rest).length)) :
    ∃ body, ']' :: rest = body ++ [']'] ∧ Scanned acc R body := by
  rw [classRanges_bracket] at h
  cases h
  rw [classBodyEnd, List.length_cons] at hend
  obtain rfl : rest = [] :=
    List.length_eq_zero_iff.mp (by have := Option.some.inj hend; omega)
  exact ⟨[], rfl, .inl ⟨[], [], .done _, (List.append_nil _).symm, .nil⟩⟩

/-- **The scanner of a class**, by induction on its members. -/
theorem scanned_of_classRanges {flags : String} (fuel : Nat) :
    ∀ (chars : List Char) (acc R : List CharRange) (i : Nat),
      classRanges flags fuel chars acc = some R →
      classBodyEnd chars i = some (i + chars.length) →
      ∃ body, chars = body ++ [']'] ∧ Scanned acc R body := by
  induction fuel with
  | zero =>
    intro chars acc R i h hend
    cases chars with
    | nil => cases h
    | cons c rest =>
      by_cases hc : c = ']'
      · subst hc
        exact scanned_bracket h hend
      · rw [classRanges_zero flags hc] at h
        cases h
  | succ fuel ih =>
    intro chars acc R i h hend
    obtain ⟨body, hbody⟩ := exists_body hend
    by_cases hop : startsOperator chars = true
    · rw [hbody, startsOperator_body] at hop
      exact ⟨body, hbody, .inr (.inr ⟨[], body, .done _, hop⟩)⟩
    rw [Bool.not_eq_true] at hop
    cases chars with
    | nil => cases h
    | cons c rest =>
    by_cases hc : c = ']'
    · subst hc
      exact scanned_bracket h hend
    rw [classRanges_cons flags fuel hc] at h
    obtain ⟨⟨lo, rest₁⟩, hread, h⟩ := Option.bind_eq_some_iff.mp h
    obtain ⟨text, hsplit, hhead, hmember⟩ := member_of_readOne hread
    by_cases hopen : c = '['
    · subst hopen
      cases body with
      | nil => cases hbody
      | cons d body =>
        obtain ⟨rfl, hrest⟩ := List.cons.inj hbody
        replace hrest : rest = body ++ [']'] := hrest
        subst hrest
        refine ⟨_, hbody, .inr (.inl ⟨[], body, i + 1, .done _, ?_⟩)⟩
        have hstep : classBodyEnd ('[' :: (body ++ [']'])) i = classBodyEnd (body ++ [']']) (i + 1) :=
          classBodyEnd_char (by decide) _ i
        refine hstep.symm.trans (hend.trans ?_)
        rw [List.length_cons, List.length_append, List.length_singleton]
        congr 1
        omega
    replace hmember : ClassMember text lo := by
      rcases hmember with hmember | ⟨rfl | rfl, -⟩
      · exact hmember
      · exact absurd rfl hopen
      · exact absurd rfl hc
    have hend₁ : classBodyEnd rest₁ (i + text.length) =
        some (i + text.length + rest₁.length) := by
      rw [← hmember.classBodyEnd, ← hsplit, hend, hsplit, List.length_append]
      congr 1
      omega
    have hunits : ∀ r ∈ splitUnits flags (c != '\\') lo, Surrogate r :=
      fun r hr => surrogate_of_splitUnits hmember.isScalar hr
    obtain ⟨body₁, hbody₁⟩ := exists_body hend₁
    have hop₁ : startsOperator (text ++ body₁) = false := by
      rw [← Bool.not_eq_true]
      intro hstarts
      have := startsOperator_append [']'] hstarts
      rw [List.append_assoc, ← hbody₁, ← hsplit, hop] at this
      cases this
    have hwhole : c :: rest = text ++ body₁ ++ [']'] := by
      rw [hsplit, hbody₁, List.append_assoc]
    dsimp only at h
    -- Before the bracket of the class, a dash is a member.
    have hone : classRanges flags fuel rest₁ (acc ++ splitUnits flags (c != '\\') lo ++
        [(lo, lo)]) = some R → (∀ d, ['-', d] <+: body₁ → d = '-') →
        ∃ body, c :: rest = body ++ [']'] ∧ Scanned acc R body := by
      intro h hdash
      obtain ⟨body', hbody', hscanned⟩ := ih rest₁ _ R _ h hend₁
      obtain rfl := List.append_cancel_right (hbody₁.symm.trans hbody')
      exact ⟨_, hwhole, hscanned.one hmember hop₁ hdash hunits⟩
    split at h
    · next d rest' =>
      split at h
      · next hd =>
        obtain ⟨⟨hi, rest₂⟩, hread₂, h⟩ := Option.bind_eq_some_iff.mp h
        by_cases hdashes : d = '-'
        · subst hdashes
          have hop₂ : startsOperator body₁ = true := by
            rw [← startsOperator_body, ← hbody₁]
            rfl
          refine ⟨_, hwhole, .inr (.inr ⟨_, body₁, .one hmember hop₁ ?_ (.done _), hop₂⟩)⟩
          intro d hprefix
          obtain ⟨more, hmore⟩ := hprefix
          rw [← hmore] at hbody₁
          exact (List.cons.inj (List.cons.inj hbody₁).2).1.symm
        obtain ⟨last, hsplit₂, hhead₂, hlast⟩ := member_of_readOne hread₂
        replace hlast : RangeEnd last hi := by
          rcases hlast with hlast | ⟨rfl | rfl, rfl, rfl⟩
          · exact .member hlast (by rw [hhead₂]; simpa using hdashes)
          · exact .bracket
          · exact absurd hd (by decide)
        have hend₂ : classBodyEnd rest₂ (i + text.length + 1 + last.length) =
            some (i + text.length + 1 + last.length + rest₂.length) := by
          rw [← hlast.classBodyEnd, ← hsplit₂]
          refine (classBodyEnd_char (by decide) _ _).symm.trans (hend₁.trans ?_)
          rw [List.length_cons, hsplit₂, List.length_append]
          congr 1
          omega
        obtain ⟨body₂, hbody₂, hscanned⟩ := ih rest₂ _ R _ h hend₂
        have hbody₁' : body₁ = '-' :: (last ++ body₂) := by
          refine List.append_cancel_right (hbody₁.symm.trans ?_ : body₁ ++ [']'] = _ ++ [']'])
          rw [hsplit₂, hbody₂]
          simp
        rw [hbody₁'] at hop₁ hwhole
        have hboth : ∀ r ∈ splitUnits flags (c != '\\') lo ++ splitUnits flags (d != '\\') hi,
            Surrogate r := by
          intro r hr
          rcases List.mem_append.mp hr with hr | hr
          · exact hunits r hr
          · exact surrogate_of_splitUnits hlast.isScalar hr
        refine ⟨_, hwhole, Scanned.range ?_ hmember hop₁ hlast hboth⟩
        simpa using hscanned
      · next hd =>
        obtain rfl : d = ']' := by simpa using hd
        refine hone h fun d hprefix => ?_
        obtain ⟨more, hmore⟩ := hprefix
        rw [← hmore] at hbody₁
        have hrest' : rest' = more ++ [']'] := (List.cons.inj (List.cons.inj hbody₁).2).2
        rw [classBodyEnd_char (by decide), classBodyEnd, hrest'] at hend₁
        have := Option.some.inj hend₁
        simp only [List.length_append, List.length_cons, List.length_nil] at this
        omega
    · next hshape =>
      refine hone h fun d hprefix => ?_
      obtain ⟨more, hmore⟩ := hprefix
      refine absurd ?_ (hshape d (more ++ [']']))
      rw [hbody₁, ← hmore]
      rfl

theorem classRanges_dash (flags : String) (fuel : Nat) (rest : List Char) (acc : List CharRange) :
    classRanges flags (fuel + 1) ('-' :: rest) acc =
      (match rest with
      | '-' :: d :: rest' =>
        if d != ']' then do
          let (hi, rest') ← readOne (d :: rest')
          classRanges flags fuel rest' (acc ++ splitUnits flags (d != '\\') hi ++ [(0x2D, hi)])
        else classRanges flags fuel rest (acc ++ [(0x2D, 0x2D)])
      | _ => classRanges flags fuel rest (acc ++ [(0x2D, 0x2D)])) := by
  have hunits : acc ++ splitUnits flags ('-' != '\\') '-'.toNat = acc := by
    rw [splitUnits, if_neg (by simp), List.append_nil]
  rw [classRanges_cons flags fuel (by decide)]
  show (match rest with | '-' :: d :: rest' => _ | _ => _) = _
  rw [hunits]
  rfl

/-- **Dashes that open a class** are read three at a time, as a range from a dash to a dash. -/
theorem classRanges_dashes {flags : String} {more : List Char} (hmore : more.head? ≠ some '-') :
    ∀ (n fuel : Nat) (acc R : List CharRange), (n % 3 = 2 → more.head? = some ']') →
      classRanges flags fuel (List.replicate n '-' ++ more) acc = some R →
      ∃ fuel' dashes, classRanges flags fuel' more (acc ++ dashes) = some R ∧
        (∀ r ∈ dashes, r = (0x2D, 0x2D)) ∧ (dashes = [] ↔ n = 0)
  | 0, fuel, acc, R, _, h => ⟨fuel, [], by rwa [List.append_nil], by simp, by simp⟩
  | _ + 1, 0, acc, R, _, h => by
    rw [List.replicate_succ, List.cons_append, classRanges_zero flags (by decide)] at h
    cases h
  | 1, fuel + 1, acc, R, _, h => by
    replace h := (classRanges_dash flags fuel more acc).symm.trans h
    split at h
    · exact absurd rfl hmore
    · exact ⟨fuel, [(0x2D, 0x2D)], h, by simp, by simp⟩
  | 2, fuel + 1, acc, R, hclose, h => by
    have hhead := hclose rfl
    cases more with
    | nil => cases hhead
    | cons c rest =>
      obtain rfl : c = ']' := Option.some.inj hhead
      replace h := (classRanges_dash flags fuel ('-' :: ']' :: rest) acc).symm.trans h
      obtain ⟨fuel', dashes, h', hdashes, -⟩ :=
        classRanges_dashes hmore 1 fuel (acc ++ [(0x2D, 0x2D)]) R (by simp) h
      refine ⟨fuel', (0x2D, 0x2D) :: dashes, by simpa using h', ?_, by simp⟩
      exact List.forall_mem_cons.mpr ⟨rfl, hdashes⟩
  | n + 3, fuel + 1, acc, R, hclose, h => by
    replace h := (classRanges_dash flags fuel ('-' :: '-' :: (List.replicate n '-' ++ more))
      acc).symm.trans h
    have hunits : splitUnits flags ('-' != '\\') 0x2D = [] := by rw [splitUnits, if_neg (by simp)]
    replace h : classRanges flags fuel (List.replicate n '-' ++ more)
        (acc ++ splitUnits flags ('-' != '\\') 0x2D ++ [(0x2D, 0x2D)]) = some R := h
    rw [hunits, List.append_nil] at h
    obtain ⟨fuel', dashes, h', hdashes, -⟩ :=
      classRanges_dashes hmore n fuel (acc ++ [(0x2D, 0x2D)]) R (fun hn => hclose (by omega)) h
    refine ⟨fuel', (0x2D, 0x2D) :: dashes, by simpa using h', ?_, by simp⟩
    exact List.forall_mem_cons.mpr ⟨rfl, hdashes⟩

/-! ## Complements -/

/-- What the complement of sorted ranges covers, from `next` on. -/
theorem inRanges_complementFrom {l : List CharRange} (hsorted : l.Pairwise fun x y => x.1 ≤ y.1)
    (hl : ∀ r ∈ l, r.1 ≤ r.2 ∧ r.1 ≤ maxCodePoint) (next c : Nat) :
    InRanges (complementFrom l next) c ↔ next ≤ c ∧ c ≤ maxCodePoint ∧ ¬ InRanges l c := by
  induction l generalizing next with
  | nil =>
    unfold complementFrom
    split <;> simp [InRanges]
    omega
  | cons r rest ih =>
    obtain ⟨lo, hi⟩ := r
    obtain ⟨hfirst, hrest⟩ := List.pairwise_cons.mp hsorted
    obtain ⟨⟨hle, hmax⟩, hl'⟩ := List.forall_mem_cons.mp hl
    dsimp only at hle hmax hfirst
    have hbehind : InRanges rest c → lo ≤ c := by
      rintro ⟨r, hr, hlo, -⟩
      exact (hfirst r hr).trans hlo
    unfold complementFrom
    rw [inRanges_append, ih hrest hl', inRanges_cons]
    have hgap : InRanges (if next < lo then [(next, lo - 1)] else []) c ↔ next ≤ c ∧ c < lo := by
      split <;> simp [InRanges] <;> omega
    rw [hgap]
    dsimp only
    constructor
    · rintro (⟨hnext, hlt⟩ | ⟨hnext, hc, hnot⟩)
      · exact ⟨hnext, by omega, fun h => h.elim (by omega) fun h => by have := hbehind h; omega⟩
      · exact ⟨by omega, hc, fun h => h.elim (by omega) hnot⟩
    · rintro ⟨hnext, hc, hnot⟩
      have hnot' := not_or.mp hnot
      by_cases hlt : c < lo
      · exact .inl ⟨hnext, hlt⟩
      · exact .inr ⟨by omega, hc, hnot'.2⟩

/-! ## A language with these properties -/

/-- The members of a body, up to its end, an operator or a class inside it. -/
def readMembers : Nat → List Char → Option (List CharRange × List Char)
  | _, [] => some ([], [])
  | 0, _ :: _ => none
  | fuel + 1, c :: more =>
    if c = '[' ∨ startsOperator (c :: more) = true then some ([], c :: more)
    else do
      let (lo, rest) ← readOne (c :: more)
      match rest with
      | '-' :: d :: rest' =>
        if d = '-' then (readMembers fuel rest).map fun r => ((lo, lo) :: r.1, r.2)
        else do
          let (hi, rest') ← readOne (d :: rest')
          (readMembers fuel rest').map fun r => ((lo, hi) :: r.1, r.2)
      | _ => (readMembers fuel rest).map fun r => ((lo, lo) :: r.1, r.2)

/-- A set operator on what its operands take. -/
def applyOperator (op : Char) (a b : Bool) : Bool :=
  if op = '&' then a && b else if op = '-' then a && !b else a != b

/-- What a body takes, from left to right, `opening` the dashes before its members. -/
def classSet : Nat → List CharRange → Option (Char × (Nat → Bool)) → List Char →
    Option (Nat → Bool)
  | 0, _, _, _ => none
  | fuel + 1, opening, left, body => do
    let (members, rest) ← readMembers body.length body
    let items := opening ++ members
    if items.any fun r => r.2 < r.1 then none
    else
      let takes := fun c => items.any fun r => r.1 ≤ c && c ≤ r.2
      let takes := match left with
        | none => takes
        | some (op, left) => fun c => applyOperator op (left c) (takes c)
      match rest with
      | [] => some takes
      | '[' :: _ => none
      | op :: rest => classSet fuel [] (some (op, takes)) rest.tail

/-- What a class takes, of the text behind its bracket. -/
def classOf (text : List Char) : Option (Nat → Bool) :=
  let body := text.dropLast
  if text.getLast? = some ']' ∧ body ≠ [] then
    classSet (body.length + 1) (List.replicate (body.takeWhile (· = '-')).length (0x2D, 0x2D)) none
      (body.dropWhile (· = '-'))
  else none

/-- A language of the dialect, with the set operators. -/
def classLanguage (text : List Char) : Option (List Char → Prop) :=
  if text = "[\\s\\S]".toList then some fun s => ∃ c, s = [c]
  else
    match text with
    | '[' :: '^' :: rest => (classOf rest).map fun takes s =>
        ∃ c : Char, s = [c] ∧ takes c.toNat = false
    | '[' :: rest => (classOf rest).map fun takes s => ∃ c : Char, s = [c] ∧ takes c.toNat = true
    | '\\' :: rest => ((readEscape ('\\' :: rest)).filter fun e => e.1 = text.length).map
        fun e s => ∃ c : Char, s = [c] ∧ c.toNat = e.2
    | [c] => if c ∈ regexSyntax then none else some (· = [c])
    | _ => none

/-- Where a reading of members ends: with the body, before an operator or a class inside. -/
def Ends (rest : List Char) : Prop :=
  rest = [] ∨ rest.head? = some '[' ∨ startsOperator rest = true

theorem ClassMember.cons {text : List Char} {cp : Nat} (h : ClassMember text cp) :
    ∃ c more, text = c :: more ∧ c ≠ '[' := by
  cases h with
  | @char c hc =>
    exact ⟨c, [], rfl, fun heq => hc (heq ▸ by simp)⟩
  | escape h =>
    obtain ⟨rest, rfl⟩ := h.head
    exact ⟨'\\', rest, rfl, by decide⟩

theorem RangeEnd.cons {text : List Char} {cp : Nat} (h : RangeEnd text cp) :
    ∃ c more, text = c :: more ∧ c ≠ '-' := by
  cases h with
  | member h hdash =>
    obtain ⟨c, more, rfl, -⟩ := h.cons
    exact ⟨c, more, rfl, by simpa using hdash⟩
  | bracket => exact ⟨'[', [], rfl, by decide⟩

theorem RangeEnd.readOne {text : List Char} {cp : Nat} (h : RangeEnd text cp) (more : List Char) :
    readOne (text ++ more) = some (cp, more) := by
  cases h with
  | member h => exact h.readOne more
  | bracket => rfl

/-- **The members of a body are read one way.** -/
theorem Reads.readMembers {body rest : List Char} {items : List CharRange}
    (h : Reads body items rest) (hrest : Ends rest) :
    ∀ fuel, body.length ≤ fuel → readMembers fuel body = some (items, rest) := by
  induction h with
  | done rest =>
    intro fuel hfuel
    match rest, fuel with
    | [], 0 => rfl
    | [], _ + 1 => rfl
    | c :: more, fuel + 1 =>
      refine if_pos ?_
      rcases hrest with hnil | hhead | hop
      · cases hnil
      · exact .inl (Option.some.inj hhead)
      · exact .inr hop
  | @one text more rest cp items htext hop hdash _ ih =>
    intro fuel hfuel
    have hread := htext.readOne more
    obtain ⟨c, text, rfl, hc⟩ := htext.cons
    rw [List.cons_append] at hop hread ⊢
    rw [List.cons_append, List.length_cons, List.length_append] at hfuel
    cases fuel with
    | zero => omega
    | succ fuel =>
      have hmore := ih hrest fuel (by omega)
      refine (if_neg ?_).trans ?_
      · rintro (heq | hstarts)
        · exact hc heq
        · rw [hop] at hstarts
          cases hstarts
      rw [hread]
      show (match more with | '-' :: d :: rest' => _ | _ => _) = _
      split
      · next d rest' _ =>
        obtain rfl := hdash d ⟨rest', rfl⟩
        rw [if_pos rfl, hmore]
        rfl
      · rw [hmore]
        rfl
  | @range text last more rest lo hi items htext hop hlast _ ih =>
    intro fuel hfuel
    have hread := htext.readOne ('-' :: (last ++ more))
    have hread₂ := hlast.readOne more
    obtain ⟨c, text, rfl, hc⟩ := htext.cons
    obtain ⟨d, last, rfl, hd⟩ := hlast.cons
    simp only [List.cons_append] at hop hread hread₂ ⊢
    simp only [List.cons_append, List.length_cons, List.length_append] at hfuel
    cases fuel with
    | zero => omega
    | succ fuel =>
      have hmore := ih hrest fuel (by omega)
      refine (if_neg ?_).trans ?_
      · rintro (heq | hstarts)
        · exact hc heq
        · rw [hop] at hstarts
          cases hstarts
      rw [hread]
      show (if d = '-' then _ else _) = _
      rw [if_neg hd, hread₂]
      show (TabnasBnf.readMembers fuel more).map _ = _
      rw [hmore]
      rfl

/-- The class of a body takes what its first members take, up to an operator or a class inside. -/
theorem classOf_body {body rest : List Char} {items : List CharRange} (hne : body ≠ [])
    (h : ClassBody body items rest) (hrest : rest = [] ∨ rest.head? = some '[') :
    classOf (body ++ [']']) =
      if items.any fun r => r.2 < r.1 then none
      else if rest = [] then some fun c => items.any fun r => r.1 ≤ c && c ≤ r.2
      else none := by
  obtain ⟨n, more, members, rfl, hmore, rfl, hreads⟩ := h
  have hdashes : (List.replicate n '-').takeWhile (· = '-') = List.replicate n '-' := by simp
  have htake : (List.replicate n '-' ++ more).takeWhile (· = '-') = List.replicate n '-' := by
    rw [List.takeWhile_append_of_pos (by simp +contextual)]
    cases more with
    | nil => simp
    | cons c more =>
      rw [List.takeWhile_cons_of_neg (by simpa using hmore), List.append_nil]
  have hdrop : (List.replicate n '-' ++ more).dropWhile (· = '-') = more := by
    rw [List.dropWhile_append_of_pos (by simp +contextual)]
    cases more with
    | nil => rfl
    | cons c more => exact List.dropWhile_cons_of_neg (by simpa using hmore)
  have hends : Ends rest := hrest.imp_right .inl
  unfold classOf
  dsimp only
  rw [List.dropLast_concat, if_pos ⟨by simp, hne⟩, htake, hdrop, List.length_replicate]
  unfold classSet
  rw [hreads.readMembers hends more.length le_rfl]
  dsimp only [Option.bind_eq_bind, Option.bind_some]
  split
  · rfl
  · rcases hrest with rfl | hhead
    · rfl
    · cases rest with
      | nil => cases hhead
      | cons c rest =>
        obtain rfl : c = '[' := Option.some.inj hhead
        rfl

/-- The text of a class whose body is read is not the one of white space and all else. -/
theorem classText_ne {neg : Bool} {body rest : List Char} {items : List CharRange}
    (h : ClassBody body items rest) (hrest : Ends rest) :
    classText neg body ≠ "[\\s\\S]".toList := by
  intro heq
  cases neg with
  | true => exact absurd (List.cons.inj (List.cons.inj heq).2).1 (by decide)
  | false =>
    obtain ⟨n, more, members, rfl, -, -, hreads⟩ := h
    have hclosed : List.replicate n '-' ++ more ++ [']'] = "\\s\\S".toList ++ [']'] :=
      (List.cons.inj heq).2
    have hbody := List.append_cancel_right hclosed
    cases n with
    | succ n => exact absurd (List.cons.inj hbody).1 (by decide)
    | zero =>
      have hmore : more = "\\s\\S".toList := hbody
      have hread := hreads.readMembers hrest more.length le_rfl
      rw [hmore] at hread
      have hnone : TabnasBnf.readMembers "\\s\\S".toList.length "\\s\\S".toList = none := by decide
      rw [hnone] at hread
      cases hread

/-- A class is read by its brackets. -/
theorem classLanguage_classText {neg : Bool} {body rest : List Char} {items : List CharRange}
    (hbodied : Bodied neg body) (h : ClassBody body items rest)
    (hrest : rest = [] ∨ rest.head? = some '[') :
    classLanguage (classText neg body) = (classOf (body ++ [']'])).map fun takes s =>
      ∃ c : Char, s = [c] ∧ takes c.toNat = !neg := by
  unfold classLanguage
  rw [if_neg (classText_ne h (hrest.imp_right .inl))]
  cases neg with
  | true => rfl
  | false =>
    obtain ⟨hne, hhead⟩ := hbodied
    cases body with
    | nil => exact absurd rfl hne
    | cons c body =>
      have hc : c ≠ '^' := by simpa using hhead rfl
      show (match '[' :: c :: (body ++ [']']) with
        | '[' :: '^' :: rest => _
        | '[' :: rest => _
        | '\\' :: rest => _
        | [c] => _
        | _ => _) = _
      split
      · next heq => exact absurd (List.cons.inj (List.cons.inj heq).2).1 hc
      · next heq =>
        obtain rfl := (List.cons.inj heq).2
        rfl
      · next heq => cases heq
      · next heq => cases heq
      · next hno _ _ => exact absurd rfl (hno _)

/-- **The properties of the dialect**, of this language. -/
theorem classDialect : ClassDialect classLanguage where
  char := by
    intro c hc
    have hsyntax : c ≠ '[' ∧ c ≠ '\\' := by
      constructor <;> rintro rfl <;> exact hc (by decide)
    unfold classLanguage
    rw [if_neg (by simp)]
    split
    · next heq => exact absurd (List.cons.inj heq).1 hsyntax.1
    · next heq => exact absurd (List.cons.inj heq).1 hsyntax.1
    · next heq => exact absurd (List.cons.inj heq).1 hsyntax.2
    · next heq =>
      obtain rfl := (List.cons.inj heq).1
      exact if_neg hc
    · next hno => exact absurd rfl (hno c)
  escape := by
    intro text cp h
    have hread := h.readEscape
    obtain ⟨rest, rfl⟩ := h.head
    unfold classLanguage
    rw [if_neg (by simp)]
    show ((readEscape ('\\' :: rest)).filter fun e => e.1 = ('\\' :: rest).length).map _ = _
    rw [hread]
    simp
  everything := if_pos rfl
  empty := by
    intro neg
    cases neg <;> rfl
  members := by
    intro neg body items hbodied hbody hordered
    have hany : (items.any fun r => decide (r.2 < r.1)) = false := by
      rw [List.any_eq_false]
      exact fun r hr => by simpa using hordered r hr
    rw [classLanguage_classText hbodied hbody (.inl rfl), classOf_body hbodied.1 hbody (.inl rfl),
      hany, if_neg (by simp), if_pos rfl]
    refine congrArg some (funext fun s => propext (exists_congr fun c => and_congr_right fun _ => ?_))
    have htakes : (items.any fun r => r.1 ≤ c.toNat && c.toNat ≤ r.2) = true ↔
        InRanges items c.toNat := by
      simp [InRanges]
    rw [← htakes]
    cases neg <;> simp
  backwards := by
    intro neg body items hbodied hbody hback
    have hany : (items.any fun r => decide (r.2 < r.1)) = true := by
      obtain ⟨r, hr, hlt⟩ := hback
      exact List.any_eq_true.mpr ⟨r, hr, by simpa using hlt⟩
    rw [classLanguage_classText hbodied hbody (.inl rfl), classOf_body hbodied.1 hbody (.inl rfl),
      hany, if_pos rfl]
    rfl
  inside := by
    intro neg body items rest i hbodied hbody _
    rw [classLanguage_classText hbodied hbody (.inr rfl), classOf_body hbodied.1 hbody (.inr rfl)]
    split
    · rfl
    · rw [if_neg (by simp)]
      rfl

/-! ## Coverage -/

/-- **The classes read alike**: no member is followed by an operator, and two dashes left over of
those that open a class, three at a time, are all it holds. -/
structure ReadAlike (pattern : List Char) : Prop where
  operators : ∀ neg body items rest, pattern = classText neg body → Bodied neg body →
    ClassBody body items rest → startsOperator rest = false
  dashes : ∀ neg n more, pattern = classText neg (List.replicate n '-' ++ more) → more ≠ [] →
    more.head? ≠ some '-' → n % 3 ≠ 2

/-- The bounds of a class's members are characters. -/
theorem Reads.isScalar {body rest : List Char} {items : List CharRange}
    (h : Reads body items rest) : ∀ r ∈ items, isScalar r.1 = true ∧ isScalar r.2 = true := by
  induction h with
  | done => simp
  | one htext _ _ _ ih =>
    exact List.forall_mem_cons.mpr ⟨⟨htext.isScalar, htext.isScalar⟩, ih⟩
  | range htext _ hlast _ ih =>
    exact List.forall_mem_cons.mpr ⟨⟨htext.isScalar, hlast.isScalar⟩, ih⟩

theorem le_maxCodePoint {cp : Nat} (h : isScalar cp = true) : cp ≤ maxCodePoint := by
  unfold isScalar maxCodePoint at *
  simp only [Bool.or_eq_true, Bool.and_eq_true, decide_eq_true_eq] at h
  omega

/-- The surrogates beside the members of a class take no character. -/
theorem Woven.inRanges {items made : List CharRange} (h : Woven items made) {c : Nat}
    (hc : TabnasBnf.isScalar c = true) : InRanges made c ↔ InRanges items c := by
  constructor
  · rintro ⟨r, hr, hlo, hhi⟩
    rcases h.rest r hr with hr | ⟨u, rfl, hu, hu'⟩
    · exact ⟨r, hr, hlo, hhi⟩
    · unfold TabnasBnf.isScalar at hc
      simp only [Bool.or_eq_true, Bool.and_eq_true, decide_eq_true_eq] at hc
      dsimp only at hlo hhi
      omega
  · rintro ⟨r, hr, hlo, hhi⟩
    exact ⟨r, h.sub r hr, hlo, hhi⟩

theorem exists_dashes (chars : List Char) :
    ∃ n more, chars = List.replicate n '-' ++ more ∧ more.head? ≠ some '-' := by
  induction chars with
  | nil => exact ⟨0, [], rfl, by simp⟩
  | cons c rest ih =>
    by_cases hc : c = '-'
    · obtain ⟨n, more, rfl, hmore⟩ := ih
      exact ⟨n + 1, more, by rw [hc]; rfl, hmore⟩
    · exact ⟨0, c :: rest, rfl, by simpa using hc⟩

/-- With ordered members, every range made is ordered. -/
theorem Woven.proper {items made : List CharRange} (h : Woven items made)
    (hitems : ∀ r ∈ items, r.1 ≤ r.2 ∧ isScalar r.1 = true) :
    ∀ r ∈ made, r.1 ≤ r.2 ∧ r.1 ≤ maxCodePoint := by
  intro r hr
  rcases h.rest r hr with hr | ⟨u, rfl, -, hu⟩
  · exact ⟨(hitems r hr).1, le_maxCodePoint (hitems r hr).2⟩
  · exact ⟨le_rfl, hu.trans (by decide)⟩

/-- The complement of a class takes what the class does not. -/
theorem inRanges_complement {R : List CharRange}
    (hR : ∀ r ∈ R, r.1 ≤ r.2 ∧ r.1 ≤ maxCodePoint) {c : Nat} :
    InRanges (complementFrom (R.insertionSort fun a b => a.1 ≤ b.1) 0) c ↔
      c ≤ maxCodePoint ∧ ¬ InRanges R c := by
  have htotal : Std.Total (fun a b : CharRange => a.1 ≤ b.1) := ⟨fun a b => Nat.le_total a.1 b.1⟩
  have htrans : IsTrans CharRange (fun a b => a.1 ≤ b.1) := ⟨fun _ _ _ => Nat.le_trans⟩
  rw [inRanges_complementFrom (List.pairwise_insertionSort _ R)
    fun r hr => hR r ((List.mem_insertionSort _).mp hr)]
  unfold InRanges
  simp

/-- What the scanner makes of a class is what its members take, in a dialect that takes the
class. -/
theorem members_of_classRanges {language : List Char → Option (List Char → Prop)}
    (hd : ClassDialect language) {flags : String} (neg : Bool) {chars : List Char} {fuel i : Nat}
    {R : List CharRange} (h : classRanges flags fuel chars [] = some R)
    (hend : classBodyEnd chars i = some (i + chars.length))
    (halike : ReadAlike ('[' :: ((if neg then ['^'] else []) ++ chars)))
    (hneg : neg = false → chars.head? ≠ some '^') {L : List Char → Prop}
    (hL : language ('[' :: ((if neg then ['^'] else []) ++ chars)) = some L) :
    ∃ items, Woven items R ∧ (∀ r ∈ items, r.1 ≤ r.2 ∧ isScalar r.1 = true) ∧
      ∀ s, L s ↔ ∃ c : Char, s = [c] ∧ (InRanges items c.toNat ↔ neg = false) := by
  obtain ⟨n, more, rfl, hmore⟩ := exists_dashes chars
  have hendMore : classBodyEnd more (i + n) = some (i + n + more.length) := by
    rw [classBodyEnd_plain (by simp +contextual), List.length_append] at hend
    simpa [Nat.add_assoc] using hend
  obtain ⟨body, rfl⟩ := exists_body hendMore
  have hbody : body.head? ≠ some '-' := by
    cases body with
    | nil => simp
    | cons c body => exact hmore
  have htext : '[' :: ((if neg then ['^'] else []) ++ (List.replicate n '-' ++ (body ++ [']']))) =
      classText neg (List.replicate n '-' ++ body) := by
    simp [classText]
  rw [htext] at halike hL
  have hbodied : Bodied neg (List.replicate n '-' ++ body) := by
    have hne : List.replicate n '-' ++ body ≠ [] := by
      intro hnil
      rw [hnil, hd.empty] at hL
      cases hL
    refine ⟨hne, fun hfalse hhead => hneg hfalse ?_⟩
    rw [← List.append_assoc, List.head?_append_of_ne_nil _ hne]
    exact hhead
  have hclose : n % 3 = 2 → (body ++ [']']).head? = some ']' := by
    intro hn
    by_cases hnil : body = []
    · rw [hnil]
      rfl
    · exact absurd hn (halike.dashes neg n body rfl hnil hbody)
  obtain ⟨fuel', dashes, hscan, hdashes, hzero⟩ := classRanges_dashes hmore n fuel [] R hclose h
  obtain ⟨body', hbody', hscanned⟩ := scanned_of_classRanges fuel' _ _ R _ hscan hendMore
  obtain rfl := List.append_cancel_right hbody'
  rw [List.nil_append] at hscanned
  have hclass : ∀ members rest, Reads body members rest →
      ClassBody (List.replicate n '-' ++ body) (List.replicate n (0x2D, 0x2D) ++ members) rest :=
    fun members rest hreads => ⟨n, body, members, rfl, hbody, rfl, hreads⟩
  rcases hscanned with ⟨members, made, hreads, rfl, hwoven⟩ | ⟨members, rest, j, hreads, hj⟩ |
    ⟨members, rest, hreads, hop⟩
  · have hitems : Woven (List.replicate n (0x2D, 0x2D) ++ members) (dashes ++ made) := by
      refine ⟨fun r hr => ?_, fun r hr => ?_⟩
      · rcases List.mem_append.mp hr with hr | hr
        · obtain ⟨hn, rfl⟩ := List.mem_replicate.mp hr
          obtain ⟨x, hx⟩ := List.exists_mem_of_ne_nil dashes (fun hnil => hn (hzero.mp hnil))
          exact List.mem_append_left _ (hdashes x hx ▸ hx)
        · exact List.mem_append_right _ (hwoven.sub r hr)
      · rcases List.mem_append.mp hr with hr | hr
        · have hn : n ≠ 0 := fun hn => by rw [hzero.mpr hn] at hr; cases hr
          exact .inl (List.mem_append_left _ (List.mem_replicate.mpr ⟨hn, hdashes r hr⟩))
        · exact (hwoven.rest r hr).imp_left (List.mem_append_right _)
    refine ⟨_, hitems, ?_⟩
    by_cases hordered : ∀ r ∈ List.replicate n (0x2D, 0x2D) ++ members, r.1 ≤ r.2
    · refine ⟨fun r hr => ⟨hordered r hr, ?_⟩, fun s => ?_⟩
      · rcases List.mem_append.mp hr with hr | hr
        · rw [(List.mem_replicate.mp hr).2]
          decide
        · exact (hreads.isScalar r hr).1
      · rw [hd.members neg _ _ hbodied (hclass _ _ hreads) hordered] at hL
        rw [← Option.some.inj hL]
    · simp only [not_forall, Nat.not_le] at hordered
      obtain ⟨r, hr, hlt⟩ := hordered
      rw [hd.backwards neg _ _ hbodied (hclass _ _ hreads) ⟨r, hr, hlt⟩] at hL
      cases hL
  · rw [hd.inside neg _ _ rest j hbodied (hclass _ _ hreads) hj] at hL
    cases hL
  · rw [halike.operators neg _ _ rest rfl hbodied (hclass _ _ hreads)] at hop
    cases hop

/-- A pattern that is one character or one escape matches the code point it is read as. -/
theorem single_of_pattern {language : List Char → Option (List Char → Prop)}
    (hd : ClassDialect language) {chars : List Char} (h : isSingleCodePointPattern chars = true) :
    ∃ cp, readOne chars = some (cp, []) ∧
      language chars = some fun s => ∃ c : Char, s = [c] ∧ c.toNat = cp := by
  unfold isSingleCodePointPattern at h
  split at h
  · next c =>
    have hsyntax : c ∉ regexSyntax := by simpa using (Bool.and_eq_true_iff.mp h).2
    have hplain : c ≠ '\\' := fun heq => hsyntax (heq ▸ List.mem_cons_self)
    refine ⟨c.toNat, (readOne_cons c []).trans (if_pos hplain), ?_⟩
    rw [hd.char c hsyntax]
    congr 1
    funext s
    refine propext ⟨fun hs => ⟨c, hs, rfl⟩, ?_⟩
    rintro ⟨d, rfl, hd⟩
    rw [Char.toNat_inj.mp hd]
  · next rest _ =>
    cases hread : readEscape ('\\' :: rest) with
    | none =>
      rw [hread] at h
      cases h
    | some e =>
      obtain ⟨n, cp⟩ := e
      rw [hread] at h
      have hn : n = ('\\' :: rest).length := by simpa using h
      obtain ⟨text, more, hsplit, hlength, hescape⟩ := escape_of_readEscape hread
      obtain rfl : more = [] := by
        have := congrArg List.length hsplit
        rw [List.length_append] at this
        exact List.length_eq_zero_iff.mp (by omega)
      rw [List.append_nil] at hsplit
      refine ⟨cp, ?_, hsplit ▸ hd.escape text cp hescape⟩
      rw [readOne_cons, if_neg (by simp), hread, hn]
      simp
  · cases h

/-- **The coverage of a class that is one code point is exact**, in every dialect with the
documented properties, for the patterns that are read alike. -/
theorem singleCodePointRanges_iff {language : List Char → Option (List Char → Prop)}
    (hd : ClassDialect language) {pattern flags : String} {r : List CharRange}
    (h : singleCodePointRanges pattern flags = some r) (halike : ReadAlike pattern.toList)
    {L : List Char → Prop} (hL : language pattern.toList = some L) (s : List Char) :
    L s ↔ ∃ c : Char, s = [c] ∧ InRanges r c.toNat := by
  have hcoverage := (Option.filter_eq_some_iff.mp h).1
  unfold singleCodePointCoverage at hcoverage
  split at hcoverage
  · cases hcoverage
  split at hcoverage
  · next hall =>
    unfold patternCharRanges at hcoverage
    rw [if_pos hall] at hcoverage
    cases hcoverage
    rw [hall, hd.everything] at hL
    rw [← Option.some.inj hL]
    refine exists_congr fun c => (and_iff_left_of_imp fun _ => ?_).symm
    exact ⟨_, List.mem_cons_self, Nat.zero_le _, le_maxCodePoint (isScalar_toNat c)⟩
  next hall =>
  split at hcoverage
  · next hhead =>
    split at hcoverage
    · next hclass =>
      unfold patternCharRanges at hcoverage
      rw [if_neg hall] at hcoverage
      generalize pattern.toList = chars at *
      split at hcoverage
      · next rest =>
        obtain ⟨R, hR, rfl⟩ := Option.map_eq_some_iff.mp hcoverage
        have hend : classBodyEnd rest 2 = some (2 + rest.length) := by
          rw [beq_iff_eq.mp hclass, Nat.add_comm]
        obtain ⟨items, hwoven, hitems, hL'⟩ :=
          members_of_classRanges hd true hR hend halike (by simp) hL
        rw [hL']
        refine exists_congr fun c => and_congr_right fun _ => ?_
        have hc := isScalar_toNat c
        rw [inRanges_complement (fun r hr => hwoven.proper hitems r hr), hwoven.inRanges hc]
        simp [le_maxCodePoint hc]
      · next rest hcaret =>
        have hhead' : rest.head? ≠ some '^' := by
          cases rest with
          | nil => simp
          | cons c rest => exact fun heq => hcaret rest (by rw [← Option.some.inj heq])
        have hend : classBodyEnd rest 1 = some (1 + rest.length) := by
          unfold isOneClass at hclass
          split at hclass
          · next heq =>
            obtain rfl := (List.cons.inj heq).2
            exact absurd rfl hhead'
          · next heq =>
            obtain rfl := (List.cons.inj heq).2
            rw [beq_iff_eq.mp hclass, Nat.add_comm]
          · cases hclass
        obtain ⟨items, hwoven, hitems, hL'⟩ :=
          members_of_classRanges hd false hcoverage hend halike (fun _ => hhead') hL
        rw [hL']
        refine exists_congr fun c => and_congr_right fun _ => ?_
        rw [hwoven.inRanges (isScalar_toNat c)]
        simp
      · next hshape =>
        cases chars with
        | nil => cases hhead
        | cons c rest => exact absurd rfl (Option.some.inj hhead ▸ hshape rest)
    · cases hcoverage
  · next hhead =>
    split at hcoverage
    · next hsingle =>
      obtain ⟨cp, hread, hlang⟩ := single_of_pattern hd hsingle
      unfold patternCharRanges at hcoverage
      rw [if_neg hall] at hcoverage
      generalize pattern.toList = chars at *
      split at hcoverage
      · exact absurd rfl hhead
      · exact absurd rfl hhead
      rw [hread] at hcoverage
      cases hcoverage
      rw [hlang] at hL
      rw [← Option.some.inj hL]
      refine exists_congr fun c => and_congr_right fun _ => ?_
      simp only [InRanges, List.mem_singleton, exists_eq_left]
      omega
    · cases hcoverage

theorem readAlike_span : ReadAlike "[a-c_]".toList where
  operators := by
    intro neg body items rest htext hbodied hbody
    obtain ⟨n, more, members, rfl, hmore, rfl, hreads⟩ := hbody
    cases neg with
    | true => exact absurd (List.cons.inj (List.cons.inj htext).2).1 (by decide)
    | false =>
      have hclosed : "a-c_".toList ++ [']'] = List.replicate n '-' ++ more ++ [']'] :=
        (List.cons.inj htext).2
      have heq := List.append_cancel_right hclosed
      cases n with
      | succ n => exact absurd (List.cons.inj heq).1 (by decide)
      | zero =>
        obtain rfl : "a-c_".toList = more := heq
        rw [← Bool.not_eq_true]
        intro hop
        have hread := hreads.readMembers (.inr (.inr hop)) _ le_rfl
        have hall : readMembers "a-c_".toList.length "a-c_".toList =
            some ([(0x61, 0x63), (0x5F, 0x5F)], []) := by decide
        rw [hall] at hread
        obtain rfl : [] = rest := (Prod.mk.inj (Option.some.inj hread)).2
        cases hop
  dashes := by
    intro neg n more htext _ _ hn
    cases neg with
    | true => exact absurd (List.cons.inj (List.cons.inj htext).2).1 (by decide)
    | false =>
      cases n with
      | zero => cases hn
      | succ n => exact absurd (List.cons.inj (List.cons.inj htext).2).1 (by decide)

theorem singleCodePointRanges_iff_span :
    singleCodePointRanges "[a-c_]" "" = some [(0x61, 0x63), (0x5F, 0x5F)] ∧
      ∃ L, classLanguage "[a-c_]".toList = some L ∧
        ∀ s, L s ↔ ∃ c : Char, s = [c] ∧ InRanges [(0x61, 0x63), (0x5F, 0x5F)] c.toNat := by
  have hranges : singleCodePointRanges "[a-c_]" "" = some [(0x61, 0x63), (0x5F, 0x5F)] := by
    decide
  exact ⟨hranges, _, rfl,
    fun s => singleCodePointRanges_iff classDialect hranges readAlike_span rfl s⟩

/-- An operator is taken for members: `[a&&b]` matches nothing, and is covered as `a`, `&`, `b`. -/
theorem singleCodePointRanges_operator :
    ¬ ∀ (pattern flags : String) (r : List CharRange), singleCodePointRanges pattern flags = some r →
      ∀ L, classLanguage pattern.toList = some L →
        ∀ s, L s ↔ ∃ c : Char, s = [c] ∧ InRanges r c.toNat := by
  intro h
  have hranges : singleCodePointRanges "[a&&b]" "" =
      some [(0x61, 0x61), (0x26, 0x26), (0x26, 0x26), (0x62, 0x62)] := by decide
  obtain ⟨c, hc, htakes⟩ := (h _ _ _ hranges _ rfl ['a']).mpr
    ⟨'a', rfl, (0x61, 0x61), List.mem_cons_self, by decide, by decide⟩
  obtain rfl : 'a' = c := List.singleton_inj.mp hc
  exact absurd htakes (by decide)

end TabnasBnf
