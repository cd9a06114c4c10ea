import TabnasBnf.Contest
import TabnasBnf.Lib.Names
import TabnasBnf.Lib.Table

/-!
# Marks

Model of `assign_marks` (`rs/src/emit.rs`): the marks that action references select alternatives by.
An alternative is marked with what it begins with, and with a number behind it from the second
alternative on that begins alike.

* `seen` is a table of counts, as in the code.
* **`assignMarks_distinct`**: the marks are distinct, and each selects one alternative, exactly when
  no alternative begins with what is spelled as a numbered mark of others.
-/

namespace TabnasBnf

/-- `strip` of `alt_discriminator`. -/
def stripHashes (name : String) : String :=
  let s := trimHashes name
  if s.isEmpty then "_" else s

/-- `alt_discriminator`. -/
def altDiscriminator (tokens : Tokens) (alt : Sequence) : String :=
  match alt.head? with
  | none => "_"
  | some el =>
    match el with
    | .term .. | .regex .. => stripHashes ((tokens.of el).getD "")
    | .token name _ => stripHashes name
    | .ref name _ _ => name
    | _ => "_"

/-- The mark of the `n`-th alternative with a discriminator. -/
def markText (base : String) (n : Nat) : String :=
  if n = 1 then base else base ++ "~" ++ toString n

/-- The closure of `assign_marks` over the alternatives. -/
def assignFrom (tokens : Tokens) : List Sequence → List (String × Nat) → List String
  | [], _ => []
  | alt :: alts, seen =>
    let base := altDiscriminator tokens alt
    let n := (seen.lookup base).getD 0 + 1
    markText base n :: assignFrom tokens alts (Table.insert seen base n)

/-- `assign_marks`. -/
def assignMarks (alts : List Sequence) (tokens : Tokens) : List String := assignFrom tokens alts []

/-! ## Distinct marks -/

theorem assignFrom_eq (tokens : Tokens) : ∀ (alts : List Sequence) (seen : List (String × Nat)),
    assignFrom tokens alts seen =
      (Names.occurrences (alts.map (altDiscriminator tokens)) fun base =>
        (seen.lookup base).getD 0).map fun e => markText e.1 e.2
  | [], _ => rfl
  | alt :: alts, seen => by
    have hseen : (fun base => ((Table.insert seen (altDiscriminator tokens alt)
          ((seen.lookup (altDiscriminator tokens alt)).getD 0 + 1)).lookup base).getD 0) =
        Function.update (fun base => (seen.lookup base).getD 0) (altDiscriminator tokens alt)
          ((seen.lookup (altDiscriminator tokens alt)).getD 0 + 1) := by
      funext base
      rw [Table.lookup_insert, Function.update_apply]
      split <;> rfl
    rw [List.map_cons, Names.occurrences, List.map_cons, assignFrom, assignFrom_eq tokens alts,
      hseen]

theorem assignMarks_eq (alts : List Sequence) (tokens : Tokens) :
    assignMarks alts tokens =
      (Names.occurrences (alts.map (altDiscriminator tokens)) fun _ => 0).map fun e =>
        markText e.1 e.2 := assignFrom_eq tokens alts []

/-- A numbered mark determines its number and what it numbers. -/
theorem markText_numbered {a b : String} {i j : Nat} (hi : i ≠ 1) (hj : j ≠ 1)
    (h : markText a i = markText b j) : a = b ∧ i = j := by
  rw [markText, if_neg hi, markText, if_neg hj] at h
  have hlist : ∀ (c : String) (n : Nat), (c ++ "~" ++ toString n).toList =
      c.toList ++ '~' :: (toString n).toList := by
    intro c n
    rw [String.toList_append, String.toList_append, List.append_assoc]
    rfl
  have h := congrArg String.toList h
  rw [hlist, hlist] at h
  obtain ⟨hbase, hnum⟩ := Names.split_last (Names.notMem_toString (by decide) i)
    (Names.notMem_toString (by decide) j) h
  exact ⟨String.toList_inj.mp hbase, Names.toString_injective (String.toList_inj.mp hnum)⟩

/-- A list without repetition has each of its members at one place. -/
theorem nodup_iff_existsUnique {α : Type} {xs : List α} :
    xs.Nodup ↔ ∀ x ∈ xs, ∃! i : Nat, xs[i]? = some x := by
  constructor
  · intro hnd x hx
    obtain ⟨i, hi⟩ := List.mem_iff_getElem?.mp hx
    refine ⟨i, hi, fun j hj => ?_⟩
    have hlt := (List.getElem?_eq_some_iff.mp hj).1
    exact (List.getElem?_inj hlt hnd).mp (hj.trans hi.symm)
  · intro huniq
    rw [List.nodup_iff_injective_getElem]
    intro i j hij
    obtain ⟨k, -, hk⟩ := huniq xs[i] (List.getElem_mem i.isLt)
    have hi := hk i (List.getElem?_eq_getElem i.isLt)
    have hj := hk j ((List.getElem?_eq_getElem j.isLt).trans (congrArg some hij.symm))
    exact Fin.ext (hi.trans hj.symm)

/-- No alternative begins with what is spelled as a numbered mark of others. -/
def Unnumbered (alts : List Sequence) (tokens : Tokens) : Prop :=
  ∀ b n, 2 ≤ n → n ≤ (alts.map (altDiscriminator tokens)).count b →
    ∀ alt ∈ alts, altDiscriminator tokens alt ≠ b ++ "~" ++ toString n

/-- **The marks are distinct, and each selects one alternative, exactly when no alternative begins
with what is spelled as a numbered mark of others.** -/
theorem assignMarks_distinct (alts : List Sequence) (tokens : Tokens) :
    ((assignMarks alts tokens).Nodup ↔ Unnumbered alts tokens) ∧
    ((∀ mark ∈ assignMarks alts tokens, ∃! i : Nat, (assignMarks alts tokens)[i]? = some mark) ↔
      Unnumbered alts tokens) := by
  rw [← nodup_iff_existsUnique, and_self, assignMarks_eq,
    List.nodup_map_iff_inj_on Names.nodup_occurrences, Unnumbered]
  generalize hbases : alts.map (altDiscriminator tokens) = bases
  constructor
  · rintro hinj b n hn hcount alt halt heq
    have hfirst : (b ++ "~" ++ toString n, 1) ∈ Names.occurrences bases fun _ => 0 := by
      rw [Names.mem_occurrences_one, ← hbases, ← heq]
      exact List.mem_map_of_mem halt
    have hnumbered : (b, n) ∈ Names.occurrences bases fun _ => 0 :=
      Names.mem_occurrences.mpr ⟨by omega, by omega⟩
    have hsame := hinj _ hfirst _ hnumbered (by
      rw [markText, if_pos rfl, markText, if_neg (by omega)])
    have hone := congrArg Prod.snd hsame
    dsimp only at hone
    omega
  · rintro happart ⟨a, i⟩ ha ⟨b, j⟩ hb heq
    obtain ⟨hi, hicount⟩ := Names.mem_occurrences.mp ha
    obtain ⟨hj, hjcount⟩ := Names.mem_occurrences.mp hb
    have hmem : ∀ {c : String}, (c, 1) ∈ Names.occurrences bases (fun _ => 0) →
        ∃ alt ∈ alts, altDiscriminator tokens alt = c := by
      intro c hc
      rw [Names.mem_occurrences_one, ← hbases] at hc
      exact List.mem_map.mp hc
    by_cases hi1 : i = 1 <;> by_cases hj1 : j = 1
    · subst hi1 hj1
      rw [markText, if_pos rfl, markText, if_pos rfl] at heq
      exact Prod.ext heq rfl
    · subst hi1
      obtain ⟨alt, halt, hbase⟩ := hmem ha
      rw [markText, if_pos rfl, markText, if_neg hj1] at heq
      exact absurd (hbase.trans heq) (happart b j (by omega) (by omega) alt halt)
    · subst hj1
      obtain ⟨alt, halt, hbase⟩ := hmem hb
      rw [markText, if_neg hi1, markText, if_pos rfl] at heq
      exact absurd (hbase.trans heq.symm) (happart a i (by omega) (by omega) alt halt)
    · obtain ⟨rfl, rfl⟩ := markText_numbered hi1 hj1 heq
      rfl

/-- `A = #x "1" / ##x "2" / #x~2 "3"`. -/
theorem assignMarks_suffixNamed :
    assignMarks [[.token "#x" none, .lit "1"], [.token "##x" none, .lit "2"],
        [.token "#x~2" none, .lit "3"]] {} = ["x", "x~2", "x~2"] ∧
      ¬ (assignMarks [[.token "#x" none, .lit "1"], [.token "##x" none, .lit "2"],
        [.token "#x~2" none, .lit "3"]] {}).Nodup := by
  decide

end TabnasBnf
