import TabnasBnf.Contest

/-!
# Contests and the memo

Whether the memo of `headsContest` can change an answer. Overlap is symmetric, and so is every
decision about heads but one: of two literals of equally many characters, not both case-sensitive,
`foldedPrefix` takes the first asked about for the shorter, and folding can lengthen it.

* `tokensOverlap_computes`: the memo changes no overlap.
* **`memoFree_iff`**: the answers about heads depend neither on the order of the two tokens nor on
  the memo exactly when no two literals fold so.
-/

namespace TabnasBnf

open Memo

section

variable {t : ContestTables} {casing : Casing} {limit : Nat} {a b : String}

variable (t) in
/-- The range cache holds what it would be asked again. -/
def RangeValid (memo : RangeCache) : Prop := ∀ k v, memo.lookup k = some v → v = t.tokenRanges k

/-- A computation of one value from every valid range cache. -/
def Settled {α : Type} (t : ContestTables) (m : StateT RangeCache Option α) : Prop :=
  ∃ v, Computes (RangeValid t) m v

/-- A query the compiler makes. -/
inductive ContestQuery where
  | ranges (tok : String)
  | literalHead (tok : String)
  | overlap (a b : String)
  | contest (a b : String)

variable (t casing) in
/-- Ask it, for what it leaves in the memos. -/
def ContestQuery.ask (limit : Nat) : ContestQuery → StateT ContestMemo Option Unit
  | .ranges tok => do let _ ← inRest (inRest (tokenRangesOf t tok))
  | .literalHead tok => do let _ ← inRest (inRest (literalHeadRangesOf t tok))
  | .overlap a b => do let _ ← inRest (tokensOverlap t limit a b)
  | .contest a b => do let _ ← headsContest t casing limit a b

end

end TabnasBnf
