import Mathlib.Data.Prod.Lex
import MicroJava.Proofs.Source.Tokens

/-! # Places in order

Places are ordered by line and then by column. Every character moves the cursor on, so the tokens of
a text stand one behind the other, and the end mark behind all of them. -/

namespace MicroJava

namespace Position

/-- A place is its line and its column. -/
theorem toLex_injective : Function.Injective fun p : Position => toLex (p.line, p.column) := by
  rintro ⟨line, column⟩ ⟨line', column'⟩ h
  obtain ⟨rfl, rfl⟩ := Prod.mk.inj h
  rfl

instance : LinearOrder Position := LinearOrder.lift' _ toLex_injective

theorem lt_iff {p q : Position} :
    p < q ↔ p.line < q.line ∨ p.line = q.line ∧ p.column < q.column :=
  Prod.Lex.toLex_lt_toLex

/-- Every character moves on, be it to the next column or the next line. -/
theorem lt_step (p : Position) (c : Char) : p < p.step c := by
  rw [lt_iff, step]
  split
  · exact .inl (Nat.lt_succ_self _)
  · exact .inr ⟨rfl, Nat.lt_succ_self _⟩

theorem le_advance (p : Position) (cs : List Char) : p ≤ p.advance cs := by
  induction cs generalizing p with
  | nil => exact le_refl p
  | cons c cs ih => exact (lt_step p c).le.trans (ih (p.step c))

theorem lt_advance (p : Position) {cs : List Char} (h : cs ≠ []) : p < p.advance cs := by
  cases cs with
  | nil => exact absurd rfl h
  | cons c cs => exact (lt_step p c).trans_le (le_advance (p.step c) cs)

end Position

namespace Cursor

/-- White space and comments are behind a token that follows them. -/
theorem le_skipTrivia (inComment : Bool) (cs : List Char) (pos : Position) :
    pos ≤ (skipTrivia inComment cs pos).pos := by
  induction cs generalizing inComment pos with
  | nil => exact le_refl pos
  | cons c cs ih =>
      have hstep := (pos.lt_step c).le
      rw [skipTrivia]
      split
      · exact hstep.trans (ih _ _)
      · split
        · exact hstep.trans (ih _ _)
        · split
          · exact hstep.trans (ih _ _)
          · exact le_refl pos

/-- A token stands at the cursor or behind it, and unless it is the end mark, the cursor moves on
behind its place. -/
theorem next_pos (cur : Cursor) :
    cur.pos ≤ cur.next.1.pos ∧ (cur.next.1.kind ≠ .eof → cur.next.1.pos < cur.next.2.pos) := by
  have hskip := le_skipTrivia false cur.rest cur.pos
  unfold next
  dsimp only
  split
  · exact ⟨hskip, fun h => absurd rfl h⟩
  · next c cs _ => exact ⟨hskip, fun _ => Position.lt_advance _ (Lexeme.taken_ne_nil c cs)⟩

/-- The end mark has nothing wrong with it. -/
theorem issue_next (cur : Cursor) (h : cur.next.1.kind = .eof) : cur.next.1.issue = none := by
  unfold next at h ⊢
  dsimp only at h ⊢
  split at h
  · rfl
  · next c cs _ => exact absurd h (Lexeme.kind_read c cs)

/-- The tokens from the cursor on stand behind it, one behind the other, and so does the end mark
behind them. -/
theorem collect_pos (n : Nat) (cur : Cursor) (done : Array Token) :
    ∃ new, (cur.collect n done).1.toList = done.toList ++ new ∧
      (∀ t ∈ new ++ [(cur.collect n done).2], cur.pos ≤ t.pos) ∧
      (new ++ [(cur.collect n done).2]).Pairwise (·.pos < ·.pos) := by
  have hend := cur.next_pos.1
  induction n generalizing cur done with
  | zero => exact ⟨[], by simp [collect], by simpa [collect] using hend, by simp⟩
  | succ n ih =>
      rw [collect_succ]
      split
      · exact ⟨[], by simp, by simpa using hend, by simp⟩
      · next hkind =>
          have hlt := cur.next_pos.2 hkind
          obtain ⟨new, hnew, hbehind, hpairs⟩ :=
            ih cur.next.2 (done.push cur.next.1) cur.next.2.next_pos.1
          refine ⟨cur.next.1 :: new, by simp [hnew], ?_, ?_⟩
          · intro t ht
            rcases List.mem_cons.1 ht with rfl | ht
            · exact hend
            · exact (hend.trans hlt.le).trans (hbehind t ht)
          · exact List.pairwise_cons.2 ⟨fun t ht => hlt.trans_le (hbehind t ht), hpairs⟩

theorem collect_last (n : Nat) (cur : Cursor) (done : Array Token) :
    ∃ cur' : Cursor, (cur.collect n done).2 = cur'.next.1 := by
  induction n generalizing cur done with
  | zero => exact ⟨cur, rfl⟩
  | succ n ih =>
      rw [collect_succ]
      split
      · exact ⟨cur, rfl⟩
      · exact ih _ _

end Cursor

namespace TokenList

/-- Tokens come in the order of their places, and no two share one. -/
theorem pairwise_pos (source : String) : (ofString source).all.Pairwise (·.pos < ·.pos) := by
  obtain ⟨new, hnew, -, hpairs⟩ :=
    Cursor.collect_pos (Cursor.ofString source).rest.length (Cursor.ofString source) #[]
  have htokens : (ofString source).tokens = new := hnew
  rw [all, htokens]
  exact hpairs

theorem issue_endMark (source : String) : (ofString source).endMark.issue = none := by
  have heof := (Cursor.collect_spec (Nat.le_refl (Cursor.ofString source).rest.length) #[]).1
  obtain ⟨cur, hlast⟩ :=
    Cursor.collect_last (Cursor.ofString source).rest.length (Cursor.ofString source) #[]
  have hmark : (ofString source).endMark = cur.next.1 := hlast
  rw [hmark]
  exact cur.issue_next (hlast ▸ heof)

end TokenList

end MicroJava
