import MicroJava.Proofs.Tree.Derivation

/-! # What is derived is read

A sequence of tokens that the grammar derives is read without gaps, to its last token and no
further, if the token behind it cannot go on with it. One token in view is enough to tell, except
for an `else`: it goes with the nearest conditional, which may be another one than the derivation
has it go with. -/

namespace MicroJava

/-- Kinds of the tokens to come. -/
def Upcoming.kinds (up : Upcoming) : List TokenKind := up.tokens.map (·.kind)

theorem Upcoming.kind_of_kinds {up : Upcoming} {k : TokenKind} {v : List TokenKind}
    (h : up.kinds = k :: v) : up.kind = k := (List.cons.inj h).1

theorem Upcoming.kinds_advance {up : Upcoming} {k : TokenKind} {v : List TokenKind}
    (h : up.kinds = k :: v) (hv : v ≠ []) : up.advance.kinds = v := by
  obtain ⟨t, later⟩ := up
  obtain ⟨-, hlater⟩ := List.cons.inj h
  cases later with
  | nil => exact absurd hlater.symm hv
  | cons u later => exact hlater

/-- The kind at the front is one of `p`. -/
def Before (p : TokenKind → Bool) (v : List TokenKind) : Prop := ∀ k w, v = k :: w → p k = true

theorem Before.mono {p q : TokenKind → Bool} {v : List TokenKind} (h : Before p v)
    (hpq : ∀ k, p k = true → q k = true) : Before q v :=
  fun k w hv => hpq k (h k w hv)

/-- Everything the part derives starts with a kind of `p`. -/
def Starts (p : TokenKind → Bool) (e : Ebnf) : Prop :=
  ∀ v, Derives e v → ∃ k w, v = k :: w ∧ p k = true

namespace Starts

variable {p : TokenKind → Bool} {e : Ebnf} {es : List Ebnf}

theorem token {k : TokenKind} (hk : p k = true) : Starts p (.token k) := by
  intro v hv
  obtain rfl := Derives.token_iff.1 hv
  exact ⟨k, [], rfl, hk⟩

theorem rule {n : Nonterminal} (h : Starts p (grammar n)) : Starts p (.rule n) :=
  fun v hv => h v (Derives.rule_iff.1 hv)

theorem seq (h : Starts p e) : Starts p (.seq (e :: es)) := by
  intro v hv
  obtain ⟨u, w, hu, -, rfl⟩ := Derives.seq_cons_iff.1 hv
  obtain ⟨k, u, rfl, hk⟩ := h u hu
  exact ⟨k, u ++ w, rfl, hk⟩

theorem alt (h : ∀ e ∈ es, Starts p e) : Starts p (.alt es) := by
  intro v hv
  obtain ⟨e, he, hv⟩ := Derives.alt_iff.1 hv
  exact h e he v hv

theorem mono {q : TokenKind → Bool} (h : Starts p e) (hpq : ∀ k, p k = true → q k = true) :
    Starts q e := by
  intro v hv
  obtain ⟨k, w, hw, hk⟩ := h v hv
  exact ⟨k, w, hw, hpq k hk⟩

theorem ne_nil (h : Starts p e) {v : List TokenKind} (hv : Derives e v) : v ≠ [] := by
  obtain ⟨k, w, rfl, -⟩ := h v hv
  exact List.cons_ne_nil _ _

theorem before (h : Starts p e) {v : List TokenKind} (hv : Derives e v) (rest : List TokenKind) :
    Before p (v ++ rest) := by
  obtain ⟨k, w, rfl, hk⟩ := h v hv
  intro k' w' heq
  obtain ⟨rfl, -⟩ := List.cons.inj heq
  exact hk

theorem before_opt (h : Starts p e) {v rest : List TokenKind} (hv : Derives (.opt e) v)
    (hr : Before p rest) : Before p (v ++ rest) := by
  rcases Derives.opt_iff.1 hv with rfl | hv
  · exact hr
  · exact h.before hv rest

theorem before_many (h : Starts p e) {v rest : List TokenKind} (hv : Derives (.many e) v)
    (hr : Before p rest) : Before p (v ++ rest) := by
  rcases Derives.many_iff.1 hv with rfl | ⟨u, w, hu, -, rfl⟩
  · exact hr
  · rw [List.append_assoc]
    exact h.before hu _

theorem before_token {k : TokenKind} {v : List TokenKind}
    (hv : Derives (.seq (.token k :: es)) v) (rest : List TokenKind) :
    Before (· == k) (v ++ rest) := by
  have hstart : Starts (· == k) (.seq (.token k :: es)) := .seq (.token (beq_self_eq_true k))
  exact hstart.before hv rest

end Starts

/-! ## First tokens -/

section First

open Starts

theorem starts_designator : Starts (· == .ident) (.rule .designator) := .rule (.seq (.token rfl))

def startsFactor (k : TokenKind) : Bool := k.startsExpr && k != .minus

theorem starts_factor : Starts startsFactor (.rule .factor) := by
  refine .rule (.alt ?_)
  intro e he
  simp only [List.mem_cons, List.not_mem_nil, or_false] at he
  rcases he with rfl | rfl | rfl | rfl | rfl
  · exact .seq (starts_designator.mono fun k hk => by rw [beq_iff_eq.1 hk]; rfl)
  · exact .token rfl
  · exact .token rfl
  · exact .seq (.token rfl)
  · exact .seq (.token rfl)

theorem starts_term : Starts startsFactor (.rule .term) := .rule (.seq starts_factor)

theorem starts_expr : Starts TokenKind.startsExpr (.rule .expr) := by
  refine .rule fun v hv => ?_
  obtain ⟨u, w, hu, hw, rfl⟩ := Derives.seq_cons_iff.1 hv
  rcases Derives.opt_iff.1 hu with rfl | hu
  · have hterm : Starts startsFactor (.seq [.rule .term,
        .many (.seq [.alt [.token .plus, .token .minus], .rule .term])]) := .seq starts_term
    exact hterm.mono (fun k hk => (Bool.and_eq_true_iff.1 hk).1) _ hw
  · obtain rfl := Derives.token_iff.1 hu
    exact ⟨.minus, w, rfl, rfl⟩

theorem starts_type : Starts (· == .ident) (.rule .type) := .rule (.seq (.token rfl))

theorem starts_varDecl : Starts (· == .ident) (.rule .varDecl) := .rule (.seq starts_type)

theorem starts_block : Starts (· == .lbrace) (.rule .block) := .rule (.seq (.token rfl))

theorem starts_actPars : Starts (· == .lparen) (.rule .actPars) := .rule (.seq (.token rfl))

theorem starts_statement : Starts TokenKind.startsStatement (.rule .statement) := by
  refine .rule (.alt ?_)
  intro e he
  simp only [List.mem_cons, List.not_mem_nil, or_false] at he
  rcases he with rfl | rfl | rfl | rfl | rfl | rfl | rfl | rfl
  · exact .seq (starts_designator.mono fun k hk => by rw [beq_iff_eq.1 hk]; rfl)
  · exact .seq (.token rfl)
  · exact .seq (.token rfl)
  · exact .seq (.token rfl)
  · exact .seq (.token rfl)
  · exact .seq (.token rfl)
  · exact starts_block.mono fun k hk => by rw [beq_iff_eq.1 hk]; rfl
  · exact .token rfl

end First

namespace Reader

variable {α β : Type} {P : α → Prop} {Q : β → Prop} {u v rest : List TokenKind}

/-- In front of `rest`, the tokens `v` are taken and a value with `P` is yielded. -/
def Accepts (r : Reader α) (P : α → Prop) (v rest : List TokenKind) : Prop :=
  rest ≠ [] → ∀ up, up.kinds = v ++ rest → P (r up).1 ∧ (r up).2.kinds = rest

theorem Accepts.imp {R : α → Prop} {r : Reader α} (h : Accepts r P v rest)
    (hpr : ∀ a, P a → R a) : Accepts r R v rest :=
  fun hne up hup => ⟨hpr _ (h hne up hup).1, (h hne up hup).2⟩

theorem Accepts.pure {a : α} (h : P a) : Accepts (pure a) P [] rest := fun _ _ hup => ⟨h, hup⟩

theorem Accepts.pure_bind {b : β} {f : β → Reader α} (h : Accepts (f b) P v rest) :
    Accepts (Pure.pure b >>= f) P v rest := h

theorem Accepts.bind {r : Reader α} {f : α → Reader β} (h : Accepts r P u (v ++ rest))
    (h' : ∀ a, P a → Accepts (f a) Q v rest) : Accepts (r >>= f) Q (u ++ v) rest := by
  intro hne up hup
  obtain ⟨ha, hup'⟩ := h (by simp [hne]) up (by rw [hup, List.append_assoc])
  exact h' _ ha hne _ hup'

/-- What was read is only put together. -/
theorem Accepts.last {r : Reader α} {f : α → β} (h : Accepts r P v rest)
    (hf : ∀ a, P a → Q (f a)) : Accepts (do return f (← r)) Q v rest := by
  intro hne up hup
  obtain ⟨ha, hup'⟩ := h hne up hup
  exact ⟨hf _ ha, hup'⟩

theorem Accepts.kind {f : TokenKind → Reader α}
    (h : ∀ k w, v ++ rest = k :: w → Accepts (f k) P v rest) :
    Accepts (Reader.kind >>= f) P v rest := by
  intro hne up hup
  obtain ⟨k, w, hkw⟩ := List.exists_cons_of_ne_nil (l := v ++ rest) (by simp [hne])
  have hk : up.kind = k := Upcoming.kind_of_kinds (hup.trans hkw)
  have hf := h k w hkw hne up hup
  rw [← hk] at hf
  exact hf

theorem Accepts.kind_cons {f : TokenKind → Reader α} {k : TokenKind}
    (h : Accepts (f k) P (k :: v) rest) : Accepts (Reader.kind >>= f) P (k :: v) rest := by
  refine .kind fun k' w hkw => ?_
  obtain ⟨rfl, -⟩ := List.cons.inj hkw
  exact h

theorem Accepts.kind_eq {f : TokenKind → Reader α} {k : TokenKind}
    (hk : Before (· == k) (v ++ rest)) (h : Accepts (f k) P v rest) :
    Accepts (Reader.kind >>= f) P v rest := by
  refine .kind fun k' w hkw => ?_
  obtain rfl : k' = k := by simpa using hk k' w hkw
  exact h

theorem Accepts.kind_before {f : TokenKind → Reader α} {p : TokenKind → Bool} (hr : Before p rest)
    (h : ∀ k, p k = true → Accepts (f k) P [] rest) : Accepts (Reader.kind >>= f) P [] rest :=
  .kind fun k w hkw => h k (hr k w hkw)

theorem Accepts.shift {f : Unit → Reader α} {k : TokenKind} (h : Accepts (f ()) P v rest) :
    Accepts (Reader.shift >>= f) P (k :: v) rest := by
  intro hne up hup
  exact h hne up.advance (Upcoming.kinds_advance hup (by simp [hne]))

/-- One token of kind `k` is taken. -/
theorem Accepts.take {r : Reader β} {f : β → Reader α} {k : TokenKind}
    (hrun : ∀ up, up.kind = k → ∃ b, Q b ∧ r up = (b, up.advance))
    (h : ∀ b, Q b → Accepts (f b) P v rest) : Accepts (r >>= f) P (k :: v) rest := by
  intro hne up hup
  obtain ⟨b, hb, heq⟩ := hrun up (Upcoming.kind_of_kinds hup)
  have hbind : (r >>= f) up = f b up.advance := by
    change f (r up).1 (r up).2 = _
    rw [heq]
  rw [hbind]
  exact h b hb hne _ (Upcoming.kinds_advance hup (by simp [hne]))

theorem Accepts.demand {f : Mark → Reader α} {k : TokenKind} (h : Accepts (f .found) P v rest) :
    Accepts (Reader.demand k >>= f) P (k :: v) rest := by
  refine .take (Q := (· = .found)) (fun up hk => ⟨.found, rfl, ?_⟩) fun b hb => hb ▸ h
  change (if up.kind = k then _ else _ : Reader Mark) up = _
  rw [if_pos hk]
  rfl

theorem Accepts.accept {f : Bool → Reader α} {k : TokenKind} (h : Accepts (f true) P v rest) :
    Accepts (Reader.accept k >>= f) P (k :: v) rest := by
  refine .take (Q := (· = true)) (fun up hk => ⟨true, rfl, ?_⟩) fun b hb => hb ▸ h
  change (if up.kind = k then _ else _ : Reader Bool) up = _
  rw [if_pos hk]
  rfl

theorem Accepts.accept_not {f : Bool → Reader α} {k : TokenKind}
    (hr : Before (· != k) (v ++ rest)) (h : Accepts (f false) P v rest) :
    Accepts (Reader.accept k >>= f) P v rest := by
  refine .kind (f := fun k' => (if k' = k then do
    Reader.shift
    return true
    else return false) >>= f) fun k' w hkw => ?_
  rw [if_neg (by simpa using hr k' w hkw)]
  exact h

theorem Accepts.name {f : Option String → Reader α} (h : ∀ s, Accepts (f (some s)) P v rest) :
    Accepts (Reader.name >>= f) P (.ident :: v) rest := by
  refine .take (Q := fun n => ∃ s, n = some s) (fun up hk => ⟨some up.ahead.text, ⟨_, rfl⟩, ?_⟩) ?_
  · change (if up.kind = .ident then _ else _ : Reader (Option String)) up = _
    rw [if_pos hk]
    rfl
  · rintro _ ⟨s, rfl⟩
    exact h s

theorem Accepts.value {f : Int32 → Reader α} {k : TokenKind} (h : ∀ n, Accepts (f n) P v rest) :
    Accepts (Reader.value >>= f) P (k :: v) rest :=
  .take (Q := fun _ => True) (fun _ _ => ⟨_, trivial, rfl⟩) fun n _ => h n

/-- One of two readers is chosen, and what follows takes what it yields. -/
theorem Accepts.choose {γ : Type} {c : Reader γ} {p : γ → Prop} [DecidablePred p]
    {r r' : Reader α} {f : α → Reader β}
    (h : Accepts (do if p (← c) then r else r') P u (v ++ rest))
    (h' : ∀ a, P a → Accepts (f a) Q v rest) :
    Accepts (do
      let a ← if p (← c) then r else r'
      f a) Q (u ++ v) rest := by
  have heq : (do
      let a ← if p (← c) then r else r'
      f a) = (do if p (← c) then r else r') >>= f := by
    simp only [bind_assoc]
    congr 1
    funext x
    split <;> rfl
  rw [heq]
  exact h.bind h'

/-! ## Loops -/

/-- A bound that is too small leaves no room for what follows. -/
theorem Accepts.of_length {r : Reader α} (h : (v ++ rest).length ≤ 0) : Accepts r P v rest := by
  intro hne
  simp only [List.length_append, Nat.le_zero, Nat.add_eq_zero_iff] at h
  exact absurd (List.length_eq_zero_iff.1 h.2) hne

/-- No gap is in any of them. -/
def Whole (outline : α → Outline) (all : List α) : Prop := ∀ a ∈ all, (outline a).gaps = 0

theorem gaps_concat {outline : α → Outline} {all : List α} (h : Whole outline all) :
    (Outline.concat outline all).gaps = 0 := by
  induction all with
  | nil => rfl
  | cons a all ih =>
      rw [Outline.concat, Outline.gaps_append, h a (List.mem_cons_self ..),
        ih fun b hb => h b (List.mem_cons_of_mem _ hb)]

theorem Whole.push {outline : α → Outline} {done : Array α} {a : α}
    (h : Whole outline done.toList) (ha : (outline a).gaps = 0) :
    Whole outline (done.push a).toList := by
  intro b hb
  rw [Array.toList_push, List.mem_append, List.mem_singleton] at hb
  rcases hb with hb | rfl
  · exact h b hb
  · exact ha

theorem accepts_many {more first stop follow : TokenKind → Bool} {item : Reader α}
    {outline : α → Outline} {e : Ebnf} {n : Nat} (hstart : Starts first e)
    (hfirst : ∀ k, first k = true → more k = true ∧ follow k = true)
    (hstop : ∀ k, stop k = true → more k = false ∧ follow k = true)
    (h : ∀ v rest, Derives e v → Before follow rest → (v ++ rest).length ≤ n →
      Accepts item (fun a => (outline a).gaps = 0) v rest)
    {fuel : Nat} {done : Array α} (hdone : Whole outline done.toList) (hv : Derives (.many e) v)
    (hr : Before stop rest) (hn : (v ++ rest).length ≤ n) (hf : (v ++ rest).length ≤ fuel) :
    Accepts (many more item fuel done) (Whole outline) v rest := by
  induction fuel generalizing v done with
  | zero => exact .of_length hf
  | succ fuel ih =>
      rw [many]
      rcases Derives.many_iff.1 hv with rfl | ⟨u, w, hu, hw, rfl⟩
      · refine .kind_before hr fun k hk => ?_
        rw [if_neg (by simp [(hstop k hk).1])]
        exact .pure hdone
      · have hnext : Before follow (w ++ rest) := by
          refine (hstart.mono fun k hk => (hfirst k hk).2).before_many hw ?_
          exact hr.mono fun k hk => (hstop k hk).2
        obtain ⟨k, u, rfl, hk⟩ := hstart u hu
        refine .kind_cons ?_
        rw [if_pos (hfirst k hk).1]
        have hitem := h (k :: u) (w ++ rest) hu hnext (by simpa using hn)
        refine hitem.bind fun a ha => ih (hdone.push ha) hw ?_ ?_
        · simp only [List.length_append, List.length_cons] at hn ⊢
          omega
        · simp only [List.length_append, List.length_cons] at hf ⊢
          omega

theorem accepts_behindCommas {stop follow : TokenKind → Bool} {item : Reader α}
    {outline : α → Outline} {es : List Ebnf} {n : Nat}
    (hstop : ∀ k, stop k = true → k ≠ .comma) (hcomma : follow .comma = true)
    (hfollow : ∀ k, stop k = true → follow k = true)
    (h : ∀ v rest, Derives (.seq es) v → Before follow rest → (v ++ rest).length ≤ n →
      Accepts item (fun a => (outline a).gaps = 0) v rest)
    {fuel : Nat} {done : Array α} (hdone : Whole outline done.toList)
    (hv : Derives (.many (.seq (.token .comma :: es))) v) (hr : Before stop rest)
    (hn : (v ++ rest).length ≤ n) (hf : (v ++ rest).length ≤ fuel) :
    Accepts (behindCommas item fuel done) (Whole outline) v rest := by
  induction fuel generalizing v done with
  | zero => exact .of_length hf
  | succ fuel ih =>
      rw [behindCommas]
      rcases Derives.many_iff.1 hv with rfl | ⟨u, w, hu, hw, rfl⟩
      · have hnot : Before (· != .comma) rest := hr.mono fun k hk => by simpa using hstop k hk
        exact .accept_not hnot (.pure hdone)
      · have hnext : Before follow (w ++ rest) := by
          have hcommas : Starts follow (.seq (.token .comma :: es)) := .seq (.token hcomma)
          exact hcommas.before_many hw (hr.mono hfollow)
        obtain ⟨_, u, hcomma, hitem, rfl⟩ := Derives.seq_cons_iff.1 hu
        obtain rfl := Derives.token_iff.1 hcomma
        rw [List.append_assoc]
        simp only [List.length_append, List.length_cons, List.length_nil] at hn hf
        have hitem := h u (w ++ rest) hitem hnext (by simp only [List.length_append]; omega)
        refine .accept (hitem.bind fun a ha => ih (hdone.push ha) hw ?_ ?_)
        · simp only [List.length_append]
          omega
        · simp only [List.length_append]
          omega

theorem accepts_commaSeparated {stop follow : TokenKind → Bool} {item : Reader α}
    {outline : α → Outline} {es : List Ebnf} {n : Nat}
    (hstop : ∀ k, stop k = true → k ≠ .comma) (hcomma : follow .comma = true)
    (hfollow : ∀ k, stop k = true → follow k = true)
    (h : ∀ v rest, Derives (.seq es) v → Before follow rest → (v ++ rest).length ≤ n →
      Accepts item (fun a => (outline a).gaps = 0) v rest)
    {fuel : Nat} (hu : Derives (.seq es) u)
    (hv : Derives (.many (.seq (.token .comma :: es))) v) (hr : Before stop rest)
    (hn : (u ++ v ++ rest).length ≤ n) (hf : (v ++ rest).length ≤ fuel) :
    Accepts (commaSeparated fuel item) (Whole outline) (u ++ v) rest := by
  have hnext : Before follow (v ++ rest) := by
    have hcommas : Starts follow (.seq (.token .comma :: es)) := .seq (.token hcomma)
    exact hcommas.before_many hv (hr.mono hfollow)
  refine (h u (v ++ rest) hu hnext (by simpa using hn)).bind fun first hfirst => ?_
  refine accepts_behindCommas hstop hcomma hfollow h ?_ hv hr ?_ hf
  · simpa [Whole] using hfirst
  · simp only [List.length_append] at hn ⊢
    omega

/-! ## Expressions -/

/-- Nothing that goes on with a designator. -/
def endsDesignator (k : TokenKind) : Bool := k != .period && k != .lbracket

/-- Nothing that goes on with a factor. -/
def endsFactor (k : TokenKind) : Bool := endsDesignator k && k != .lparen

/-- Nothing that goes on with a product. -/
def endsTerm (k : TokenKind) : Bool := endsFactor k && (productOp? k).isNone

/-- Nothing that goes on with a sum. -/
def endsExpr (k : TokenKind) : Bool := endsTerm k && (sumOp? k).isNone

/-- What is expected of the reader of nested expressions, up to `n` tokens. -/
def AcceptsExpr (n : Nat) (expr : Reader Expr) : Prop :=
  ∀ v rest, Derives (.rule .expr) v → Before endsExpr rest → (v ++ rest).length ≤ n →
    Accepts expr (fun e => e.outline.gaps = 0) v rest

variable {expr : Reader Expr} {fuel : Nat}

theorem accepts_selectors (h : AcceptsExpr fuel expr) {n : Nat} {base : Designator}
    (hb : base.outline.gaps = 0)
    (hv : Derives (.many (.alt [.seq [.token .period, .token .ident],
      .seq [.token .lbracket, .rule .expr, .token .rbracket]])) v)
    (hr : Before endsDesignator rest) (hn : (v ++ rest).length ≤ n)
    (hf : (v ++ rest).length ≤ fuel) :
    Accepts (selectors expr n base) (fun d => d.outline.gaps = 0) v rest := by
  induction n generalizing v base with
  | zero => exact .of_length hn
  | succ n ih =>
      rw [selectors]
      rcases Derives.many_iff.1 hv with rfl | ⟨u, w, hu, hw, rfl⟩
      · refine .kind_before hr fun k hk => ?_
        split
        · simp [endsDesignator] at hk
        · simp [endsDesignator] at hk
        · exact .pure hb
      · simp only [List.length_append] at hn hf
        obtain ⟨form, hform, hu⟩ := Derives.alt_iff.1 hu
        simp only [List.mem_cons, List.not_mem_nil, or_false] at hform
        rcases hform with rfl | rfl
        · simp only [Derives.seq_cons_iff, Derives.token_iff, Derives.seq_nil_iff] at hu
          obtain ⟨_, _, rfl, ⟨_, _, rfl, rfl, rfl⟩, rfl⟩ := hu
          refine .kind_cons (.shift (.name fun f => ih ?_ hw ?_ ?_))
          · simp [Outline.ident, hb]
          · simp at hn ⊢
            omega
          · simp at hf ⊢
            omega
        · simp only [Derives.seq_cons_iff, Derives.token_iff, Derives.seq_nil_iff] at hu
          obtain ⟨_, _, rfl, ⟨i, _, hi, ⟨_, _, rfl, rfl, rfl⟩, rfl⟩, rfl⟩ := hu
          simp only [List.length_append, List.length_cons, List.length_nil] at hn hf
          simp only [List.append_assoc, List.cons_append, List.nil_append]
          have hclose : Before endsExpr (.rbracket :: w ++ rest) := fun k _ hk => by cases hk; rfl
          have hindex := h i _ hi hclose (by simp; omega)
          refine .kind_cons (.shift (hindex.bind fun e he => .demand (ih ?_ hw ?_ ?_)))
          · simp [Mark.outline, hb, he]
          · simp only [List.length_append]
            omega
          · simp only [List.length_append]
            omega

theorem accepts_designator (h : AcceptsExpr fuel expr) (hv : Derives (.rule .designator) v)
    (hr : Before endsDesignator rest) (hn : (v ++ rest).length ≤ fuel + 1) :
    Accepts (designator fuel expr) (fun d => d.outline.gaps = 0) v rest := by
  obtain ⟨w, hw, rfl⟩ := Derives.seq_token_iff.1 (Derives.rule_iff.1 hv)
  have hlen : (w ++ rest).length ≤ fuel := Nat.le_of_succ_le_succ hn
  exact .name fun n => accepts_selectors h rfl (Derives.seq_one_iff.1 hw) hr hlen hlen

theorem gaps_outlines {args : List Expr} (h : Whole Expr.outline args) :
    (Expr.outlines args).gaps = 0 := by
  cases args with
  | nil => rfl
  | cons first rest =>
      have hfirst : first.outline.gaps = 0 := h first (List.mem_cons_self ..)
      have hrest : Whole (.token ++ Expr.outline ·) rest := by
        intro e he
        simpa using h e (List.mem_cons_of_mem _ he)
      rw [Expr.outlines_cons, Outline.gaps_append, hfirst, gaps_concat hrest]

theorem accepts_arguments (h : AcceptsExpr fuel expr) (hv : Derives (.rule .actPars) v)
    (hn : (v ++ rest).length ≤ fuel + 1) :
    Accepts (arguments fuel expr)
      (fun r => (Expr.outlines r.1).gaps = 0 ∧ r.2 = .found) v rest := by
  obtain ⟨w, hw, rfl⟩ := Derives.seq_token_iff.1 (Derives.rule_iff.1 hv)
  obtain ⟨args, close, hargs, hclose, rfl⟩ := Derives.seq_cons_iff.1 hw
  obtain rfl := Derives.token_iff.1 (Derives.seq_one_iff.1 hclose)
  simp only [List.length_append, List.length_cons, List.length_nil] at hn
  unfold arguments
  refine .shift ?_
  rcases Derives.opt_iff.1 hargs with rfl | hsome
  · refine .kind_cons ?_
    dsimp only
    rw [if_neg (by decide)]
    exact .pure_bind (.demand (.pure ⟨rfl, rfl⟩))
  · have hstart : Starts TokenKind.startsExpr (.seq [.rule .expr,
        .many (.seq [.token .comma, .rule .expr])]) := .seq starts_expr
    have hhead := hstart.before hsome (.rparen :: rest)
    obtain ⟨first, more, hfirst, hmore, rfl⟩ := Derives.seq_cons_iff.1 hsome
    refine .kind fun k w hkw => ?_
    dsimp only
    rw [if_pos (hhead k w (by simpa using hkw))]
    simp only [List.length_append] at hn
    have hitem : ∀ v rest, Derives (.seq [.rule .expr]) v → Before endsExpr rest →
        (v ++ rest).length ≤ fuel → Accepts expr (fun e => e.outline.gaps = 0) v rest :=
      fun v rest hv => h v rest (Derives.seq_one_iff.1 hv)
    have hlist := accepts_commaSeparated (fun k (hk : (k == .rparen) = true) => by
        rw [beq_iff_eq.1 hk]
        decide) rfl (fun k hk => by
        rw [beq_iff_eq.1 hk]
        rfl) hitem (Derives.seq_one_iff.2 hfirst) (Derives.seq_one_iff.1 hmore)
      (fun k w (hk : .rparen :: rest = k :: w) => by
        cases hk
        rfl) (by simp; omega) (show (more ++ .rparen :: rest).length ≤ fuel by simp; omega)
    exact hlist.bind fun args hargs => .demand (.pure ⟨gaps_outlines hargs, rfl⟩)

theorem accepts_allocation (h : AcceptsExpr fuel expr)
    (hv : Derives (.seq [.token .kwNew, .token .ident,
      .opt (.seq [.token .lbracket, .rule .expr, .token .rbracket])]) v)
    (hr : Before endsDesignator rest) (hn : (v ++ rest).length ≤ fuel + 1) :
    Accepts (allocation expr) (fun e => e.outline.gaps = 0) v rest := by
  obtain ⟨w, hw, rfl⟩ := Derives.seq_token_iff.1 hv
  obtain ⟨brackets, hbrackets, rfl⟩ := Derives.seq_token_iff.1 hw
  refine .shift (.name fun n => ?_)
  rcases Derives.opt_iff.1 (Derives.seq_one_iff.1 hbrackets) with rfl | hsome
  · have hnot : Before (· != .lbracket) rest := hr.mono fun k hk => (Bool.and_eq_true_iff.1 hk).2
    exact .accept_not hnot (.pure rfl)
  · obtain ⟨inside, hinside, rfl⟩ := Derives.seq_token_iff.1 hsome
    obtain ⟨size, close, hsize, hclose, rfl⟩ := Derives.seq_cons_iff.1 hinside
    obtain rfl := Derives.token_iff.1 (Derives.seq_one_iff.1 hclose)
    simp only [List.length_append, List.length_cons, List.length_nil] at hn
    have hnested := h size (.rbracket :: rest) hsize (fun k w hk => by cases hk; rfl)
      (by simp; omega)
    refine .accept (hnested.bind fun e he => .demand (.pure ?_))
    simp [Outline.ident, Mark.outline, he]

theorem accepts_factor (h : AcceptsExpr fuel expr) (hv : Derives (.rule .factor) v)
    (hr : Before endsFactor rest) (hn : (v ++ rest).length ≤ fuel + 1) :
    Accepts (factor fuel expr) (fun e => e.outline.gaps = 0) v rest := by
  obtain ⟨form, hform, hv⟩ := Derives.alt_iff.1 (Derives.rule_iff.1 hv)
  have hr' : Before endsDesignator rest := hr.mono fun k hk => (Bool.and_eq_true_iff.1 hk).1
  unfold factor
  simp only [List.mem_cons, List.not_mem_nil, or_false] at hform
  rcases hform with rfl | rfl | rfl | rfl | rfl
  · obtain ⟨u, w, hu, hw, rfl⟩ := Derives.seq_cons_iff.1 hv
    have hw := Derives.seq_one_iff.1 hw
    have hnext : Before endsDesignator (w ++ rest) := by
      refine (starts_actPars.mono fun k hk => ?_).before_opt hw hr'
      rw [beq_iff_eq.1 hk]
      rfl
    have hhead : Before (· == .ident) (u ++ w ++ rest) := by
      rw [List.append_assoc]
      exact starts_designator.before hu _
    refine .kind_eq hhead ((accepts_designator h hu hnext (by simpa using hn)).bind fun x hx => ?_)
    rcases Derives.opt_iff.1 hw with rfl | hw
    · refine .kind_before hr fun k hk => ?_
      rw [if_neg (by
        rintro rfl
        simp [endsFactor] at hk)]
      exact .pure hx
    · refine .kind_eq (starts_actPars.before hw rest) ?_
      rw [if_pos rfl]
      refine (accepts_arguments h hw ?_).last ?_
      · simp only [List.length_append] at hn ⊢
        omega
      · rintro r ⟨hargs, hrparen⟩
        simp [hx, hargs, hrparen, Mark.outline]
  · obtain rfl := Derives.token_iff.1 hv
    exact .kind_cons (.value fun n => .pure rfl)
  · obtain rfl := Derives.token_iff.1 hv
    exact .kind_cons (.value fun n => .pure rfl)
  · exact .kind_eq (Starts.before_token hv rest) (accepts_allocation h hv hr' hn)
  · obtain ⟨w, hw, rfl⟩ := Derives.seq_token_iff.1 hv
    obtain ⟨inner, close, hinner, hclose, rfl⟩ := Derives.seq_cons_iff.1 hw
    obtain rfl := Derives.token_iff.1 (Derives.seq_one_iff.1 hclose)
    simp only [List.length_append, List.length_cons, List.length_nil] at hn
    have hnested := h inner (.rparen :: rest) hinner (fun k w hk => by cases hk; rfl)
      (by simp; omega)
    refine .kind_cons (.shift (hnested.bind fun e he => .demand (.pure ?_)))
    simp [Mark.outline, he]

theorem accepts_operators {op? : TokenKind → Option Arithmetic} {operand : Reader Expr}
    {eop e : Ebnf} {stop follow : TokenKind → Bool} {n : Nat}
    (hop : ∀ u, Derives eop u → ∃ k op, u = [k] ∧ op? k = some op ∧ follow k = true)
    (hstop : ∀ k, stop k = true → op? k = none ∧ follow k = true)
    (h : ∀ v rest, Derives e v → Before follow rest → (v ++ rest).length ≤ n →
      Accepts operand (fun x => x.outline.gaps = 0) v rest)
    {fuel : Nat} {left : Expr} (hl : left.outline.gaps = 0)
    (hv : Derives (.many (.seq [eop, e])) v) (hr : Before stop rest)
    (hn : (v ++ rest).length ≤ n) (hf : (v ++ rest).length ≤ fuel) :
    Accepts (operators op? operand fuel left) (fun x => x.outline.gaps = 0) v rest := by
  induction fuel generalizing v left with
  | zero => exact .of_length hf
  | succ fuel ih =>
      rw [operators]
      rcases Derives.many_iff.1 hv with rfl | ⟨u, w, hu, hw, rfl⟩
      · refine .kind_before hr fun k hk => ?_
        rw [(hstop k hk).1]
        exact .pure hl
      · have hnext : Before follow (w ++ rest) := by
          have hops : Starts follow (.seq [eop, e]) := .seq fun u hu => by
            obtain ⟨k, op, rfl, -, hk⟩ := hop u hu
            exact ⟨k, [], rfl, hk⟩
          exact hops.before_many hw (hr.mono fun k hk => (hstop k hk).2)
        obtain ⟨o, x, ho, hx, rfl⟩ := Derives.seq_cons_iff.1 hu
        obtain ⟨k, op, rfl, hk, -⟩ := hop o ho
        simp only [List.length_append, List.length_cons, List.length_nil] at hn hf
        rw [List.append_assoc]
        refine .kind_cons ?_
        rw [hk]
        have hright := h x (w ++ rest) (Derives.seq_one_iff.1 hx) hnext
          (by simp only [List.length_append]; omega)
        refine .shift (hright.bind fun right hright => ih ?_ hw ?_ ?_)
        · simp [hl, hright]
        · simp only [List.length_append]
          omega
        · simp only [List.length_append]
          omega

theorem accepts_term (h : AcceptsExpr fuel expr) (hv : Derives (.rule .term) v)
    (hr : Before endsTerm rest) (hn : (v ++ rest).length ≤ fuel + 1) :
    Accepts (term fuel expr) (fun e => e.outline.gaps = 0) v rest := by
  have hop : ∀ u, Derives (.alt [.token .times, .token .slash, .token .percent]) u →
      ∃ k op, u = [k] ∧ productOp? k = some op ∧ endsFactor k = true := by
    intro u hu
    obtain ⟨e, he, hu⟩ := Derives.alt_iff.1 hu
    simp only [List.mem_cons, List.not_mem_nil, or_false] at he
    rcases he with rfl | rfl | rfl <;> exact ⟨_, _, Derives.token_iff.1 hu, rfl, rfl⟩
  have hstop : ∀ k, endsTerm k = true → productOp? k = none ∧ endsFactor k = true := by
    intro k hk
    simpa [endsTerm, and_comm] using hk
  obtain ⟨u, w, hu, hw, rfl⟩ := Derives.seq_cons_iff.1 (Derives.rule_iff.1 hv)
  have hw := Derives.seq_one_iff.1 hw
  have hnext : Before endsFactor (w ++ rest) := by
    have hops : Starts endsFactor (.seq [.alt [.token .times, .token .slash, .token .percent],
        .rule .factor]) := .seq fun u hu => by
      obtain ⟨k, op, rfl, -, hk⟩ := hop u hu
      exact ⟨k, [], rfl, hk⟩
    exact hops.before_many hw (hr.mono fun k hk => (hstop k hk).2)
  have hlen := List.length_pos_iff.2 (starts_factor.ne_nil hu)
  unfold term
  refine (accepts_factor h hu hnext (by simpa using hn)).bind fun left hl => ?_
  simp only [List.length_append] at hn
  refine accepts_operators hop hstop (fun v rest hv hr hn => accepts_factor h hv hr hn) hl hw hr ?_ ?_
  · simp only [List.length_append]
    omega
  · simp only [List.length_append]
    omega

theorem accepts_signedTerm (h : AcceptsExpr fuel expr)
    (hu : Derives (.opt (.token .minus)) u) (hv : Derives (.rule .term) v)
    (hr : Before endsTerm rest) (hn : (u ++ v ++ rest).length ≤ fuel + 1) :
    Accepts (signedTerm fuel expr) (fun e => e.outline.gaps = 0) (u ++ v) rest := by
  unfold signedTerm
  rcases Derives.opt_iff.1 hu with rfl | hu
  · have hnot : Before (· != .minus) (v ++ rest) :=
      (starts_term.mono fun k hk => (Bool.and_eq_true_iff.1 hk).2).before hv rest
    exact .accept_not hnot (accepts_term h hv hr hn)
  · obtain rfl := Derives.token_iff.1 hu
    refine .accept ((accepts_term h hv hr ?_).last fun e he => ?_)
    · simp only [List.length_append, List.length_cons, List.length_nil] at hn ⊢
      omega
    · simpa using he

theorem accepts_sum (h : AcceptsExpr fuel expr) : AcceptsExpr (fuel + 1) (sum fuel expr) := by
  intro v rest hv hr hn
  have hop : ∀ u, Derives (.alt [.token .plus, .token .minus]) u →
      ∃ k op, u = [k] ∧ sumOp? k = some op ∧ endsTerm k = true := by
    intro u hu
    obtain ⟨e, he, hu⟩ := Derives.alt_iff.1 hu
    simp only [List.mem_cons, List.not_mem_nil, or_false] at he
    rcases he with rfl | rfl <;> exact ⟨_, _, Derives.token_iff.1 hu, rfl, rfl⟩
  have hstop : ∀ k, endsExpr k = true → sumOp? k = none ∧ endsTerm k = true := by
    intro k hk
    simpa [endsExpr, and_comm] using hk
  obtain ⟨sign, w, hsign, hw, rfl⟩ := Derives.seq_cons_iff.1 (Derives.rule_iff.1 hv)
  obtain ⟨first, more, hfirst, hmore, rfl⟩ := Derives.seq_cons_iff.1 hw
  have hmore := Derives.seq_one_iff.1 hmore
  have hnext : Before endsTerm (more ++ rest) := by
    have hops : Starts endsTerm (.seq [.alt [.token .plus, .token .minus], .rule .term]) :=
      .seq fun u hu => by
        obtain ⟨k, op, rfl, -, hk⟩ := hop u hu
        exact ⟨k, [], rfl, hk⟩
    exact hops.before_many hmore (hr.mono fun k hk => (hstop k hk).2)
  have hlen := List.length_pos_iff.2 (starts_term.ne_nil hfirst)
  simp only [List.length_append] at hn
  unfold sum
  rw [← List.append_assoc]
  refine (accepts_signedTerm h hsign hfirst hnext (by simp; omega)).bind fun left hl => ?_
  refine accepts_operators hop hstop (fun v rest hv hr hn => accepts_term h hv hr hn) hl hmore hr
    ?_ ?_
  · simp only [List.length_append]
    omega
  · simp only [List.length_append]
    omega

theorem accepts_expr (fuel : Nat) : AcceptsExpr fuel (Reader.expr fuel) := by
  induction fuel with
  | zero => exact fun v rest _ _ hn => .of_length hn
  | succ fuel ih => exact accepts_sum ih

theorem accepts_condition {n : Nat} (h : AcceptsExpr n expr) (hv : Derives (.rule .condition) v)
    (hr : Before endsExpr rest) (hn : (v ++ rest).length ≤ n) :
    Accepts (condition expr) (fun c => c.outline.gaps = 0) v rest := by
  obtain ⟨left, w, hleft, hw, rfl⟩ := Derives.seq_cons_iff.1 (Derives.rule_iff.1 hv)
  obtain ⟨rel, right, hrel, hright, rfl⟩ := Derives.seq_cons_iff.1 hw
  obtain ⟨form, hform, hrel⟩ := Derives.alt_iff.1 (Derives.rule_iff.1 hrel)
  have hone : ∃ k op, rel = [k] ∧ relop? k = some op ∧ endsExpr k = true := by
    simp only [List.mem_cons, List.not_mem_nil, or_false] at hform
    rcases hform with rfl | rfl | rfl | rfl | rfl | rfl <;>
      exact ⟨_, _, Derives.token_iff.1 hrel, rfl, rfl⟩
  obtain ⟨k, op, rfl, hop, hk⟩ := hone
  simp only [List.length_append, List.length_cons, List.length_nil] at hn
  unfold condition
  have hl := h left ([k] ++ right ++ rest) hleft (fun k' w hw => by cases hw; exact hk)
    (by simp; omega)
  refine hl.bind fun l hl => ?_
  have hnext : Accepts relop (fun r => ∃ op, r = some op) [k] (right ++ rest) := by
    refine .kind_cons ?_
    rw [hop]
    exact .shift (.pure ⟨op, rfl⟩)
  refine hnext.bind ?_
  rintro _ ⟨op, rfl⟩
  refine (h right rest (Derives.seq_one_iff.1 hright) hr (by simp; omega)).last fun r hr => ?_
  simp [Condition.outline, Outline.present, hl, hr]

/-! ## Statements -/

/-- The statement can take an `else` that stands behind it. -/
def Absorbs (v : List TokenKind) : Prop :=
  ∀ w, Derives (.rule .statement) w → Derives (.rule .statement) (v ++ .kwElse :: w)

/-- What is expected of the reader of nested statements, up to `n` tokens. -/
def AcceptsStmt (n : Nat) (stmt : Reader Stmt) : Prop :=
  ∀ v rest, Derives (.rule .statement) v → Before (· != .kwElse) rest ∨ ¬ Absorbs v →
    (v ++ rest).length ≤ n → Accepts stmt (fun s => s.outline.gaps = 0) v rest

variable {stmt : Reader Stmt} {n : Nat} {c : List TokenKind}

theorem derives_form {form : Ebnf} {n : Nonterminal} {forms : List Ebnf}
    (hn : grammar n = .alt forms) (hform : form ∈ forms) (h : Derives form v) :
    Derives (.rule n) v :=
  .rule (hn ▸ .alt hform h)

theorem derives_guard {es : List Ebnf} (hc : Derives (.rule .condition) c)
    (hv : Derives (.seq es) v) :
    Derives (.seq (.token .lparen :: .rule .condition :: .token .rparen :: es))
      (.lparen :: (c ++ .rparen :: v)) :=
  .cons (.token _) (.cons hc (.cons (.token _) hv))

theorem derives_ifElse (hc : Derives (.rule .condition) c) (hu : Derives (.rule .statement) u)
    (hv : Derives (.rule .statement) v) :
    Derives (.rule .statement) (.kwIf :: .lparen :: (c ++ .rparen :: (u ++ .kwElse :: v))) := by
  have helse : Derives (.opt (.seq [.token .kwElse, .rule .statement])) (.kwElse :: v) :=
    .present (.cons (.token .kwElse) (Derives.seq_one_iff.2 hv))
  have htail := Derives.cons hu (Derives.seq_one_iff.2 helse)
  exact derives_form rfl (by simp) (.cons (.token .kwIf) (derives_guard hc htail))

theorem derives_loop (hc : Derives (.rule .condition) c) (hv : Derives (.rule .statement) v) :
    Derives (.rule .statement) (.kwWhile :: .lparen :: (c ++ .rparen :: v)) :=
  derives_form rfl (by simp) (.cons (.token .kwWhile) (derives_guard hc (Derives.seq_one_iff.2 hv)))

/-- A condition in its parentheses is read, and the rest of the statement behind it. -/
theorem Accepts.guard {f : Mark → Condition → Mark → Reader α} (h : AcceptsExpr n expr)
    (hc : Derives (.rule .condition) c) (hn : (c ++ .rparen :: (v ++ rest)).length ≤ n)
    (h' : ∀ cond : Condition, cond.outline.gaps = 0 → Accepts (f .found cond .found) P v rest) :
    Accepts (do
      let lparen ← Reader.demand .lparen
      let cond ← condition expr
      let rparen ← Reader.demand .rparen
      f lparen cond rparen) P (.lparen :: (c ++ .rparen :: v)) rest := by
  have hcond : Accepts _ _ c (.rparen :: (v ++ rest)) :=
    accepts_condition h hc (fun k w hk => by cases hk; rfl) hn
  exact .demand (hcond.bind fun cond hcond => .demand (h' cond hcond))

theorem accepts_designatorStmt (h : AcceptsExpr fuel expr)
    (hv : Derives (.seq [.rule .designator, .alt [.seq [.token .assign, .rule .expr],
      .rule .actPars], .token .semicolon]) v) (hn : (v ++ rest).length ≤ fuel + 1) :
    Accepts (designatorStmt fuel expr) (fun s => s.outline.gaps = 0) v rest := by
  obtain ⟨target, w, htarget, hw, rfl⟩ := Derives.seq_cons_iff.1 hv
  obtain ⟨action, close, haction, hclose, rfl⟩ := Derives.seq_cons_iff.1 hw
  obtain rfl := Derives.token_iff.1 (Derives.seq_one_iff.1 hclose)
  obtain ⟨form, hform, haction⟩ := Derives.alt_iff.1 haction
  simp only [List.length_append, List.length_cons, List.length_nil] at hn
  unfold designatorStmt
  simp only [List.mem_cons, List.not_mem_nil, or_false] at hform
  rcases hform with rfl | rfl
  · obtain ⟨value, hvalue, rfl⟩ := Derives.seq_token_iff.1 haction
    have hx : Accepts _ _ target (.assign :: (value ++ .semicolon :: rest)) :=
      accepts_designator h htarget (fun k w hk => by cases hk; rfl) (by simp at hn ⊢; omega)
    have hy := h value (.semicolon :: rest) (Derives.seq_one_iff.1 hvalue)
      (fun k w hk => by cases hk; rfl) (by simp at hn ⊢; omega)
    simp only [List.cons_append]
    refine Accepts.bind (by simpa using hx) fun x hx => .kind_cons (.shift ?_)
    refine hy.bind fun y hy => .demand (.pure ?_)
    simp [Mark.outline, hx, hy]
  · have hhead : Before (· == .lparen) (action ++ [TokenKind.semicolon] ++ rest) := by
      rw [List.append_assoc]
      exact starts_actPars.before haction _
    have hx := accepts_designator h htarget
      (hhead.mono fun k hk => by rw [beq_iff_eq.1 hk]; rfl) (by simp; omega)
    have hargs : Accepts _ _ action (.semicolon :: rest) :=
      accepts_arguments h haction (by simp; omega)
    refine hx.bind fun x hx => .kind_eq hhead (hargs.bind ?_)
    rintro ⟨args, rparen⟩ ⟨hargs, hrparen⟩
    refine .demand (.pure ?_)
    simp only at hargs hrparen
    simp [Mark.outline, hx, hargs, hrparen]

/-- An `else` goes with the nearest conditional that can take it. -/
theorem accepts_conditional (h : AcceptsExpr n expr) (hs : AcceptsStmt n stmt)
    (hv : Derives (.seq [.token .kwIf, .token .lparen, .rule .condition, .token .rparen,
      .rule .statement, .opt (.seq [.token .kwElse, .rule .statement])]) v)
    (hr : Before (· != .kwElse) rest ∨ ¬ Absorbs v) (hn : (v ++ rest).length ≤ n + 1) :
    Accepts (conditional expr stmt) (fun s => s.outline.gaps = 0) v rest := by
  obtain ⟨_, h₁, rfl⟩ := Derives.seq_token_iff.1 hv
  obtain ⟨_, h₂, rfl⟩ := Derives.seq_token_iff.1 h₁
  obtain ⟨c, _, hc, h₃, rfl⟩ := Derives.seq_cons_iff.1 h₂
  obtain ⟨_, h₄, rfl⟩ := Derives.seq_token_iff.1 h₃
  obtain ⟨body, tail, hbody, htail, rfl⟩ := Derives.seq_cons_iff.1 h₄
  simp only [List.length_append, List.length_cons] at hn
  refine .shift (.guard h hc (by simp; omega) fun cond hcond => ?_)
  rcases Derives.opt_iff.1 (Derives.seq_one_iff.1 htail) with rfl | helse
  · -- without an `else` of its own the statement can take one
    have hrest : Before (· != .kwElse) rest := by
      refine hr.resolve_right fun hnot => hnot ?_
      intro w hw
      simpa using derives_ifElse hc hbody hw
    have hread := hs body rest hbody (.inl hrest) (by simp; omega)
    refine Accepts.bind (v := []) hread fun s hs => .accept_not hrest (.pure ?_)
    simp [Mark.outline, hcond, hs]
  · obtain ⟨alternative, halt, rfl⟩ := Derives.seq_token_iff.1 helse
    have halt := Derives.seq_one_iff.1 halt
    by_cases habs : Absorbs body
    · -- the body takes the `else`, so the whole could take another one
      have hrest : Before (· != .kwElse) rest := by
        refine hr.resolve_right fun hnot => hnot ?_
        intro w hw
        have houter := derives_ifElse hc (habs alternative halt) hw
        simpa using houter
      have hread := hs (body ++ .kwElse :: alternative) rest (habs alternative halt) (.inl hrest)
        (by simp at hn ⊢; omega)
      rw [← List.append_nil (body ++ .kwElse :: alternative)]
      refine Accepts.bind (v := []) (by simpa using hread) fun s hs => .accept_not hrest (.pure ?_)
      simp [Mark.outline, hcond, hs]
    · have hread := hs body (.kwElse :: alternative ++ rest) hbody (.inr habs)
        (by simp at hn ⊢; omega)
      have hfree : Before (· != .kwElse) rest ∨ ¬ Absorbs alternative := by
        refine hr.imp_right fun hnot hsub => hnot fun w hw => ?_
        have houter := derives_ifElse hc hbody (hsub w hw)
        simpa using houter
      have hread' := hs alternative rest halt hfree (by simp at hn ⊢; omega)
      refine hread.bind fun s hs => .accept (hread'.last fun s' hs' => ?_)
      simp [Mark.outline, hcond, hs, hs']

theorem accepts_repetition (h : AcceptsExpr n expr) (hs : AcceptsStmt n stmt)
    (hv : Derives (.seq [.token .kwWhile, .token .lparen, .rule .condition, .token .rparen,
      .rule .statement]) v)
    (hr : Before (· != .kwElse) rest ∨ ¬ Absorbs v) (hn : (v ++ rest).length ≤ n + 1) :
    Accepts (repetition expr stmt) (fun s => s.outline.gaps = 0) v rest := by
  obtain ⟨_, h₁, rfl⟩ := Derives.seq_token_iff.1 hv
  obtain ⟨_, h₂, rfl⟩ := Derives.seq_token_iff.1 h₁
  obtain ⟨c, _, hc, h₃, rfl⟩ := Derives.seq_cons_iff.1 h₂
  obtain ⟨body, h₄, rfl⟩ := Derives.seq_token_iff.1 h₃
  have hbody := Derives.seq_one_iff.1 h₄
  simp only [List.length_append, List.length_cons] at hn
  refine .shift (.guard h hc (by simp; omega) fun cond hcond => ?_)
  have hfree : Before (· != .kwElse) rest ∨ ¬ Absorbs body := by
    refine hr.imp_right fun hnot hsub => hnot fun w hw => ?_
    have houter := derives_loop hc (hsub w hw)
    simpa using houter
  refine (hs body rest hbody hfree (by simp; omega)).last fun s hs => ?_
  simp [Mark.outline, hcond, hs]

theorem accepts_returnStmt (h : AcceptsExpr n expr)
    (hv : Derives (.seq [.token .kwReturn, .opt (.rule .expr), .token .semicolon]) v)
    (hn : (v ++ rest).length ≤ n + 1) :
    Accepts (returnStmt expr) (fun s => s.outline.gaps = 0) v rest := by
  obtain ⟨_, h₁, rfl⟩ := Derives.seq_token_iff.1 hv
  obtain ⟨value, close, hvalue, hclose, rfl⟩ := Derives.seq_cons_iff.1 h₁
  obtain rfl := Derives.token_iff.1 (Derives.seq_one_iff.1 hclose)
  simp only [List.length_append, List.length_cons, List.length_nil] at hn
  unfold returnStmt
  refine .shift ?_
  rcases Derives.opt_iff.1 hvalue with rfl | hvalue
  · refine .kind_cons ?_
    dsimp only
    rw [if_neg (by decide)]
    exact .pure_bind (.demand (.pure rfl))
  · have hhead := starts_expr.before hvalue (.semicolon :: rest)
    refine .kind fun k w hkw => ?_
    dsimp only
    rw [if_pos (hhead k w (by simpa using hkw))]
    have hread := h value (.semicolon :: rest) hvalue (fun k w hk => by cases hk; rfl)
      (by simp; omega)
    have hsome : Accepts (some <$> expr) (fun r => ∃ e : Expr, r = some e ∧ e.outline.gaps = 0) value
        (.semicolon :: rest) := hread.last fun e he => ⟨e, rfl, he⟩
    refine hsome.bind ?_
    rintro _ ⟨e, rfl, he⟩
    refine .demand (.pure ?_)
    simp [Mark.outline, he]

theorem accepts_readStmt (h : AcceptsExpr fuel expr)
    (hv : Derives (.seq [.token .kwRead, .token .lparen, .rule .designator, .token .rparen,
      .token .semicolon]) v) (hn : (v ++ rest).length ≤ fuel + 1) :
    Accepts (readStmt fuel expr) (fun s => s.outline.gaps = 0) v rest := by
  obtain ⟨_, h₁, rfl⟩ := Derives.seq_token_iff.1 hv
  obtain ⟨_, h₂, rfl⟩ := Derives.seq_token_iff.1 h₁
  obtain ⟨target, _, htarget, h₃, rfl⟩ := Derives.seq_cons_iff.1 h₂
  obtain ⟨_, h₄, rfl⟩ := Derives.seq_token_iff.1 h₃
  obtain rfl := Derives.token_iff.1 (Derives.seq_one_iff.1 h₄)
  simp only [List.length_append, List.length_cons, List.length_nil] at hn
  have hx : Accepts _ _ target (.rparen :: .semicolon :: rest) :=
    accepts_designator h htarget (fun k w hk => by cases hk; rfl) (by simp; omega)
  refine .shift (.demand (hx.bind fun x hx => .demand (.demand (.pure ?_))))
  simp [Mark.outline, hx]

theorem accepts_printStmt (h : AcceptsExpr n expr)
    (hv : Derives (.seq [.token .kwPrint, .token .lparen, .rule .expr,
      .opt (.seq [.token .comma, .token .number]), .token .rparen, .token .semicolon]) v)
    (hn : (v ++ rest).length ≤ n + 1) :
    Accepts (printStmt expr) (fun s => s.outline.gaps = 0) v rest := by
  obtain ⟨_, h₁, rfl⟩ := Derives.seq_token_iff.1 hv
  obtain ⟨_, h₂, rfl⟩ := Derives.seq_token_iff.1 h₁
  obtain ⟨value, _, hvalue, h₃, rfl⟩ := Derives.seq_cons_iff.1 h₂
  obtain ⟨width, _, hwidth, h₄, rfl⟩ := Derives.seq_cons_iff.1 h₃
  obtain ⟨_, h₅, rfl⟩ := Derives.seq_token_iff.1 h₄
  obtain rfl := Derives.token_iff.1 (Derives.seq_one_iff.1 h₅)
  simp only [List.length_append, List.length_cons, List.length_nil] at hn
  have hcomma : Starts endsExpr (.seq [.token .comma, .token .number]) := .seq (.token rfl)
  have hnext : Before endsExpr (width ++ (.rparen :: [.semicolon] ++ rest)) :=
    hcomma.before_opt hwidth fun k w hk => by cases hk; rfl
  have hread := h value (width ++ (.rparen :: [.semicolon] ++ rest)) hvalue hnext (by simp; omega)
  have hspec : Accepts widthSpec (fun w => w.outline.gaps = 0) width
      (.rparen :: [.semicolon] ++ rest) := by
    unfold widthSpec
    rcases Derives.opt_iff.1 hwidth with rfl | hsome
    · exact .accept_not (fun k w hk => by cases hk; rfl) (.pure rfl)
    · obtain ⟨_, hnum, rfl⟩ := Derives.seq_token_iff.1 hsome
      obtain rfl := Derives.token_iff.1 (Derives.seq_one_iff.1 hnum)
      refine .accept (.kind_cons ?_)
      rw [if_pos rfl]
      exact .value fun w => .pure rfl
  refine .shift (.demand (Accepts.bind (by simpa using hread) fun e he => ?_))
  refine hspec.bind fun w hw => .demand (.demand (.pure ?_))
  simp [Mark.outline, he, hw]

theorem gaps_stmts {body : List Stmt} (h : Whole Stmt.outline body) :
    (Stmt.outlines body).gaps = 0 := by
  rw [Stmt.outlines_eq_concat]
  exact gaps_concat h

theorem accepts_blockBody (hs : AcceptsStmt n stmt)
    (hv : Derives (.seq [.many (.rule .statement), .token .rbrace]) v)
    (hn : (v ++ rest).length ≤ n) (hf : (v ++ rest).length ≤ fuel) :
    Accepts (blockBody fuel stmt) (fun r => (Stmt.outlines r.1).gaps = 0 ∧ r.2 = .found) v rest := by
  obtain ⟨body, close, hbody, hclose, rfl⟩ := Derives.seq_cons_iff.1 hv
  obtain rfl := Derives.token_iff.1 (Derives.seq_one_iff.1 hclose)
  have hfirst : ∀ k : TokenKind, k.startsStatement = true →
      inBlock k = true ∧ (k != .kwElse) = true := by
    intro k
    cases k <;> decide
  have hstop : ∀ k : TokenKind, (k == .rbrace) = true →
      inBlock k = false ∧ (k != .kwElse) = true := by
    intro k hk
    rw [beq_iff_eq.1 hk]
    decide
  have hitem : ∀ v rest, Derives (.rule .statement) v → Before (· != .kwElse) rest →
      (v ++ rest).length ≤ n → Accepts stmt (fun s => s.outline.gaps = 0) v rest :=
    fun v rest hv hr hn => hs v rest hv (.inl hr) hn
  have hlist : Accepts (many inBlock stmt fuel #[]) (Whole Stmt.outline) body (.rbrace :: rest) :=
    accepts_many starts_statement hfirst hstop hitem (fun _ hs => by simp at hs) hbody
      (fun k w hk => by cases hk; rfl) (by simpa using hn) (by simpa using hf)
  exact hlist.bind fun stmts hstmts => .demand (.pure ⟨gaps_stmts hstmts, rfl⟩)

theorem accepts_startedStmt (h : AcceptsExpr fuel expr) (hs : AcceptsStmt fuel stmt)
    (hv : Derives (.rule .statement) v) (hr : Before (· != .kwElse) rest ∨ ¬ Absorbs v)
    (hn : (v ++ rest).length ≤ fuel + 1) :
    Accepts (startedStmt fuel expr stmt) (fun s => s.outline.gaps = 0) v rest := by
  obtain ⟨form, hform, hv⟩ := Derives.alt_iff.1 (Derives.rule_iff.1 hv)
  unfold startedStmt
  simp only [List.mem_cons, List.not_mem_nil, or_false] at hform
  rcases hform with rfl | rfl | rfl | rfl | rfl | rfl | rfl | rfl
  · have hhead := (Starts.seq starts_designator).before hv rest
    exact .kind_eq hhead (accepts_designatorStmt h hv hn)
  · exact .kind_eq (Starts.before_token hv rest) (accepts_conditional h hs hv hr hn)
  · exact .kind_eq (Starts.before_token hv rest) (accepts_repetition h hs hv hr hn)
  · exact .kind_eq (Starts.before_token hv rest) (accepts_returnStmt h hv hn)
  · exact .kind_eq (Starts.before_token hv rest) (accepts_readStmt h hv hn)
  · exact .kind_eq (Starts.before_token hv rest) (accepts_printStmt h hv hn)
  · obtain ⟨body, hbody, rfl⟩ := Derives.seq_token_iff.1 (Derives.rule_iff.1 hv)
    have hlen : (body ++ rest).length ≤ fuel := Nat.le_of_succ_le_succ hn
    refine .kind_cons (.shift ((accepts_blockBody hs hbody hlen hlen).last ?_))
    rintro ⟨stmts, rbrace⟩ ⟨hstmts, hrbrace⟩
    simp only at hstmts hrbrace
    simp [Mark.outline, hstmts, hrbrace]
  · obtain rfl := Derives.token_iff.1 hv
    exact .kind_cons (.shift (.pure rfl))

theorem accepts_stmt (fuel : Nat) : AcceptsStmt fuel (Reader.stmt fuel) := by
  induction fuel with
  | zero => exact fun v rest _ _ hn => .of_length hn
  | succ fuel ih =>
      intro v rest hv hr hn
      rw [Reader.stmt, stmtWith]
      have hhead := starts_statement.before hv rest
      refine .kind fun k w hkw => ?_
      rw [if_pos (hhead k w hkw)]
      exact accepts_startedStmt (accepts_expr fuel) ih hv hr hn

/-! ## Declarations -/

theorem accepts_typeRef (rest : List TokenKind) (hv : Derives (.rule .type) v)
    (hr : Before (· != .lbracket) rest) : Accepts typeRef (fun t => t.outline.gaps = 0) v rest := by
  obtain ⟨brackets, hbrackets, rfl⟩ := Derives.seq_token_iff.1 (Derives.rule_iff.1 hv)
  refine .name fun n => ?_
  rcases Derives.opt_iff.1 (Derives.seq_one_iff.1 hbrackets) with rfl | hsome
  · exact .accept_not hr (.pure rfl)
  · obtain ⟨_, hclose, rfl⟩ := Derives.seq_token_iff.1 hsome
    obtain rfl := Derives.token_iff.1 (Derives.seq_one_iff.1 hclose)
    exact .accept (.demand (.pure rfl))

theorem gaps_otherNames {names : List (Option String)}
    (h : Whole (Outline.ident .declared) names) : (otherNames names).gaps = 0 := by
  induction names with
  | nil => rfl
  | cons name rest ih =>
      have hname : (Outline.ident .declared name).gaps = 0 := h name (List.mem_cons_self ..)
      simp [otherNames, hname, ih fun n hn => h n (List.mem_cons_of_mem _ hn)]

theorem accepts_varDecl (hv : Derives (.rule .varDecl) v) (hn : (v ++ rest).length ≤ fuel) :
    Accepts (varDecl fuel) (fun d => d.outline.gaps = 0) v rest := by
  obtain ⟨type, _, htype, h₁, rfl⟩ := Derives.seq_cons_iff.1 (Derives.rule_iff.1 hv)
  obtain ⟨_, h₂, rfl⟩ := Derives.seq_token_iff.1 h₁
  obtain ⟨others, close, hothers, hclose, rfl⟩ := Derives.seq_cons_iff.1 h₂
  obtain rfl := Derives.token_iff.1 (Derives.seq_one_iff.1 hclose)
  simp only [List.length_append, List.length_cons, List.length_nil] at hn
  have hread := accepts_typeRef (.ident :: (others ++ [TokenKind.semicolon]) ++ rest) htype
    fun k w hk => by cases hk; rfl
  have hitem : ∀ v rest, Derives (.seq [.token .ident]) v → Before (fun _ => true) rest →
      (v ++ rest).length ≤ fuel →
      Accepts name (fun n => (Outline.ident .declared n).gaps = 0) v rest := by
    intro v rest hv _ _
    obtain rfl := Derives.token_iff.1 (Derives.seq_one_iff.1 hv)
    exact .bind (v := []) (f := Pure.pure) (.name fun n => .pure rfl) fun n hn => .pure hn
  have hlist : Accepts (behindCommas name fuel #[]) (Whole (Outline.ident .declared)) others
      (.semicolon :: rest) :=
    accepts_behindCommas (fun k (hk : (k == .semicolon) = true) => by
        rw [beq_iff_eq.1 hk]
        decide) rfl (fun _ _ => rfl) hitem (fun _ hn => by simp at hn) hothers
      (fun k w hk => by cases hk; rfl) (by simp; omega) (by simp; omega)
  unfold varDecl
  refine hread.bind fun t ht => .name fun n => hlist.bind fun names hnames => .demand (.pure ?_)
  simp [VarDecl.outline, Outline.ident, Mark.outline, ht, gaps_otherNames hnames]

theorem accepts_varDecls (fuel : Nat) (hv : Derives (.many (.rule .varDecl)) v)
    (hr : Before (· != .ident) rest) (hn : (v ++ rest).length ≤ fuel) :
    Accepts (varDecls fuel) (Whole VarDecl.outline) v rest := by
  have hitem : ∀ v rest, Derives (.rule .varDecl) v → Before (fun _ => true) rest →
      (v ++ rest).length ≤ fuel → Accepts (varDecl fuel) (fun d => d.outline.gaps = 0) v rest :=
    fun v rest hv _ hn => accepts_varDecl hv hn
  refine accepts_many starts_varDecl (fun k hk => ⟨hk, rfl⟩) (fun k hk => ⟨?_, rfl⟩) hitem
    (fun _ hd => by simp at hd) hv hr hn hn
  simpa using hk

theorem accepts_constDecl (hv : Derives (.rule .constDecl) v) :
    Accepts constDecl (fun d => d.outline.gaps = 0) v rest := by
  obtain ⟨_, h₁, rfl⟩ := Derives.seq_token_iff.1 (Derives.rule_iff.1 hv)
  obtain ⟨type, _, htype, h₂, rfl⟩ := Derives.seq_cons_iff.1 h₁
  obtain ⟨_, h₃, rfl⟩ := Derives.seq_token_iff.1 h₂
  obtain ⟨_, h₄, rfl⟩ := Derives.seq_token_iff.1 h₃
  obtain ⟨value, close, hvalue, hclose, rfl⟩ := Derives.seq_cons_iff.1 h₄
  obtain rfl := Derives.token_iff.1 (Derives.seq_one_iff.1 hclose)
  have hread := accepts_typeRef (.ident :: .assign :: (value ++ [TokenKind.semicolon]) ++ rest)
    htype fun k w hk => by cases hk; rfl
  have hliteral : Accepts literal (fun l => ∃ x, l = some x) value (.semicolon :: rest) := by
    obtain ⟨form, hform, hvalue⟩ := Derives.alt_iff.1 hvalue
    simp only [List.mem_cons, List.not_mem_nil, or_false] at hform
    rcases hform with rfl | rfl
    · obtain rfl := Derives.token_iff.1 hvalue
      exact .kind_cons (.value fun n => .pure ⟨_, rfl⟩)
    · obtain rfl := Derives.token_iff.1 hvalue
      exact .kind_cons (.value fun n => .pure ⟨_, rfl⟩)
  unfold constDecl
  refine .shift (hread.bind fun t ht => .name fun n => .demand (hliteral.bind ?_))
  rintro _ ⟨x, rfl⟩
  refine .demand (.pure ?_)
  simp [ConstDecl.outline, Outline.ident, Outline.present, Mark.outline, ht]

theorem accepts_classDecl (hv : Derives (.rule .classDecl) v) (hn : (v ++ rest).length ≤ fuel) :
    Accepts (classDecl fuel) (fun d => d.outline.gaps = 0) v rest := by
  obtain ⟨_, h₁, rfl⟩ := Derives.seq_token_iff.1 (Derives.rule_iff.1 hv)
  obtain ⟨_, h₂, rfl⟩ := Derives.seq_token_iff.1 h₁
  obtain ⟨_, h₃, rfl⟩ := Derives.seq_token_iff.1 h₂
  obtain ⟨fields, close, hfields, hclose, rfl⟩ := Derives.seq_cons_iff.1 h₃
  obtain rfl := Derives.token_iff.1 (Derives.seq_one_iff.1 hclose)
  simp only [List.length_append, List.length_cons, List.length_nil] at hn
  have hread : Accepts (varDecls fuel) _ fields (.rbrace :: rest) :=
    accepts_varDecls fuel hfields (fun k w hk => by cases hk; rfl) (by simp; omega)
  unfold classDecl
  refine .shift (.name fun n => .demand (hread.bind fun ds hds => .demand (.pure ?_)))
  simp [ClassDecl.outline, Outline.ident, Mark.outline, gaps_concat hds]

theorem starts_constDecl : Starts (· == .kwFinal) (.rule .constDecl) := .rule (.seq (.token rfl))

theorem starts_classDecl : Starts (· == .kwClass) (.rule .classDecl) := .rule (.seq (.token rfl))

theorem accepts_declaration
    (hv : Derives (.alt [.rule .constDecl, .rule .classDecl, .rule .varDecl]) v)
    (hn : (v ++ rest).length ≤ fuel) :
    Accepts (declaration fuel) (fun d => d.outline.gaps = 0) v rest := by
  obtain ⟨form, hform, hv⟩ := Derives.alt_iff.1 hv
  unfold declaration
  simp only [List.mem_cons, List.not_mem_nil, or_false] at hform
  rcases hform with rfl | rfl | rfl
  · exact .kind_eq (starts_constDecl.before hv rest) ((accepts_constDecl hv).last fun d hd => hd)
  · exact .kind_eq (starts_classDecl.before hv rest) ((accepts_classDecl hv hn).last fun d hd => hd)
  · exact .kind_eq (starts_varDecl.before hv rest) ((accepts_varDecl hv hn).last fun d hd => hd)

theorem accepts_declarations (fuel : Nat)
    (hv : Derives (.many (.alt [.rule .constDecl, .rule .classDecl, .rule .varDecl])) v)
    (hr : Before (· == .lbrace) rest) (hn : (v ++ rest).length ≤ fuel) :
    Accepts (many inDeclarations (declaration fuel) fuel #[]) (Whole Declaration.outline) v
      rest := by
  have hstart : Starts inDeclarations (.alt [.rule .constDecl, .rule .classDecl, .rule .varDecl]) := by
    refine .alt fun e he => ?_
    simp only [List.mem_cons, List.not_mem_nil, or_false] at he
    rcases he with rfl | rfl | rfl
    · exact starts_constDecl.mono fun k hk => by rw [beq_iff_eq.1 hk]; rfl
    · exact starts_classDecl.mono fun k hk => by rw [beq_iff_eq.1 hk]; rfl
    · exact starts_varDecl.mono fun k hk => by rw [beq_iff_eq.1 hk]; rfl
  have hitem : ∀ v rest,
      Derives (.alt [.rule .constDecl, .rule .classDecl, .rule .varDecl]) v →
      Before (fun _ => true) rest → (v ++ rest).length ≤ fuel →
      Accepts (declaration fuel) (fun d => d.outline.gaps = 0) v rest :=
    fun v rest hv _ hn => accepts_declaration hv hn
  refine accepts_many hstart (fun k hk => ⟨hk, rfl⟩) (fun k hk => ?_) hitem
    (fun _ hd => by simp at hd) hv hr hn hn
  rw [beq_iff_eq.1 hk]
  exact ⟨rfl, rfl⟩

theorem gaps_params {params : List Param} (h : Whole Param.outline params) :
    (Param.outlines params).gaps = 0 := by
  cases params with
  | nil => rfl
  | cons first rest =>
      have hfirst : first.outline.gaps = 0 := h first (List.mem_cons_self ..)
      have hrest : Whole (.token ++ Param.outline ·) rest := by
        intro q hq
        simpa using h q (List.mem_cons_of_mem _ hq)
      rw [Param.outlines_cons, Outline.gaps_append, hfirst, gaps_concat hrest]

theorem accepts_param (hv : Derives (.seq [.rule .type, .token .ident]) v) :
    Accepts param (fun q => q.outline.gaps = 0) v rest := by
  obtain ⟨type, close, htype, hclose, rfl⟩ := Derives.seq_cons_iff.1 hv
  obtain rfl := Derives.token_iff.1 (Derives.seq_one_iff.1 hclose)
  have hread := accepts_typeRef ([.ident] ++ rest) htype fun k w hk => by cases hk; rfl
  unfold param
  refine hread.bind fun t ht => .name fun n => .pure ?_
  simp [Param.outline, Outline.ident, ht]

/-- Parameters between their parentheses, of which there may be none. -/
theorem accepts_params (fuel : Nat) (rest : List TokenKind) (hv : Derives (.opt (.rule .formPars)) v)
    (hr : Before (· == .rparen) rest) (hn : (v ++ rest).length ≤ fuel) :
    Accepts (do if (← kind) = .ident then commaSeparated fuel param else pure [])
      (fun qs => (Param.outlines qs).gaps = 0) v rest := by
  rcases Derives.opt_iff.1 hv with rfl | hv
  · refine .kind_eq hr ?_
    rw [if_neg (by decide)]
    exact .pure rfl
  · have hforms := Derives.rule_iff.1 hv
    obtain ⟨type, _, htype, h₁, rfl⟩ := Derives.seq_cons_iff.1 hforms
    obtain ⟨others, h₂, rfl⟩ := Derives.seq_token_iff.1 h₁
    have hhead : Before (· == .ident) (type ++ .ident :: others ++ rest) := by
      rw [List.append_assoc]
      exact starts_type.before htype _
    refine .kind_eq hhead ?_
    rw [if_pos rfl]
    have hfirst : Derives (.seq [.rule .type, .token .ident]) (type ++ [TokenKind.ident]) :=
      .cons htype (Derives.seq_one_iff.2 (.token _))
    have hitem : ∀ v rest, Derives (.seq [.rule .type, .token .ident]) v →
        Before (fun _ => true) rest → (v ++ rest).length ≤ fuel →
        Accepts param (fun q => q.outline.gaps = 0) v rest := fun v rest hv _ _ => accepts_param hv
    have hlist : Accepts (commaSeparated fuel param) _ (type ++ [TokenKind.ident] ++ others) rest :=
      accepts_commaSeparated (fun k (hk : (k == .rparen) = true) => by
          rw [beq_iff_eq.1 hk]
          decide) rfl (fun _ _ => rfl) hitem hfirst (Derives.seq_one_iff.1 h₂) hr
        (by simpa using hn) (by simp at hn ⊢; omega)
    simpa using hlist.imp fun qs => gaps_params

theorem accepts_result (rest : List TokenKind)
    (hv : Derives (.alt [.rule .type, .token .kwVoid]) v) (hr : Before (· != .lbracket) rest) :
    Accepts (do if ← accept .kwVoid then pure .void else .type <$> typeRef)
      (fun r : ResultType => r.outline.gaps = 0) v rest := by
  obtain ⟨form, hform, hv⟩ := Derives.alt_iff.1 hv
  simp only [List.mem_cons, List.not_mem_nil, or_false] at hform
  rcases hform with rfl | rfl
  · have hhead := starts_type.before hv rest
    refine .accept_not (hhead.mono fun k hk => by rw [beq_iff_eq.1 hk]; rfl) ?_
    exact (accepts_typeRef rest hv hr).last fun t ht => ht
  · obtain rfl := Derives.token_iff.1 hv
    exact .accept (.pure rfl)

theorem accepts_method (hv : Derives (.rule .methodDecl) v) (hn : (v ++ rest).length ≤ fuel) :
    Accepts (method fuel) (fun m => m.outline.gaps = 0) v rest := by
  obtain ⟨result, _, hresult, h₁, rfl⟩ := Derives.seq_cons_iff.1 (Derives.rule_iff.1 hv)
  obtain ⟨_, h₂, rfl⟩ := Derives.seq_token_iff.1 h₁
  obtain ⟨_, h₃, rfl⟩ := Derives.seq_token_iff.1 h₂
  obtain ⟨params, _, hparams, h₄, rfl⟩ := Derives.seq_cons_iff.1 h₃
  obtain ⟨_, h₅, rfl⟩ := Derives.seq_token_iff.1 h₄
  obtain ⟨locals, _, hlocals, h₆, rfl⟩ := Derives.seq_cons_iff.1 h₅
  obtain ⟨body, hbody, rfl⟩ := Derives.seq_token_iff.1 (Derives.rule_iff.1 (Derives.seq_one_iff.1 h₆))
  simp only [List.length_append, List.length_cons] at hn
  have hresult := accepts_result (.ident :: .lparen :: (params ++ .rparen ::
    (locals ++ .lbrace :: body)) ++ rest) hresult fun k w hk => by cases hk; rfl
  have hparams := accepts_params fuel (.rparen :: (locals ++ .lbrace :: body) ++ rest) hparams
    (fun k w hk => by cases hk; rfl) (by simp; omega)
  have hlocals : Accepts _ _ locals (.lbrace :: body ++ rest) :=
    accepts_varDecls fuel hlocals (fun k w hk => by cases hk; rfl) (by simp; omega)
  have hbody : Accepts _ _ body rest :=
    accepts_blockBody (accepts_stmt fuel) hbody (by simp; omega) (by simp; omega : _ ≤ fuel)
  unfold method
  refine hresult.choose fun r hr => .name fun n => .demand ?_
  refine hparams.choose fun qs hqs => .demand ?_
  refine hlocals.bind fun ds hds => .demand (hbody.last ?_)
  rintro ⟨stmts, rbrace⟩ ⟨hstmts, hrbrace⟩
  simp only at hstmts hrbrace
  simp [Method.outline, Outline.ident, Mark.outline, hr, hqs, gaps_concat hds, hstmts, hrbrace]

theorem starts_methodDecl : Starts startsMethod (.rule .methodDecl) := by
  refine .rule (.seq (.alt fun e he => ?_))
  simp only [List.mem_cons, List.not_mem_nil, or_false] at he
  rcases he with rfl | rfl
  · exact starts_type.mono fun k hk => by rw [beq_iff_eq.1 hk]; rfl
  · exact .token rfl

theorem accepts_methods (fuel : Nat) (hv : Derives (.many (.rule .methodDecl)) v)
    (hr : Before (· == .rbrace) rest) (hn : (v ++ rest).length ≤ fuel) :
    Accepts (many startsMethod (method fuel) fuel #[]) (Whole Method.outline) v rest := by
  have hitem : ∀ v rest, Derives (.rule .methodDecl) v → Before (fun _ => true) rest →
      (v ++ rest).length ≤ fuel → Accepts (method fuel) (fun m => m.outline.gaps = 0) v rest :=
    fun v rest hv _ hn => accepts_method hv hn
  refine accepts_many starts_methodDecl (fun k hk => ⟨hk, rfl⟩) (fun k hk => ?_) hitem
    (fun _ hm => by simp at hm) hv hr hn hn
  rw [beq_iff_eq.1 hk]
  exact ⟨rfl, rfl⟩

/-- A derived program that ends the text is read without gaps. -/
theorem accepts_program (hv : Derives (.rule .program) v) (hn : v.length < fuel) :
    Accepts (program fuel) (fun p => p.outline.gaps = 0) v [.eof] := by
  obtain ⟨_, h₁, rfl⟩ := Derives.seq_token_iff.1 (Derives.rule_iff.1 hv)
  obtain ⟨_, h₂, rfl⟩ := Derives.seq_token_iff.1 h₁
  obtain ⟨decls, _, hdecls, h₃, rfl⟩ := Derives.seq_cons_iff.1 h₂
  obtain ⟨_, h₄, rfl⟩ := Derives.seq_token_iff.1 h₃
  obtain ⟨methods, close, hmethods, hclose, rfl⟩ := Derives.seq_cons_iff.1 h₄
  obtain rfl := Derives.token_iff.1 (Derives.seq_one_iff.1 hclose)
  simp only [List.length_append, List.length_cons, List.length_nil] at hn
  have hdecls : Accepts _ _ decls (.lbrace :: (methods ++ [TokenKind.rbrace]) ++ [.eof]) :=
    accepts_declarations fuel hdecls (fun k w hk => by cases hk; rfl) (by simp; omega)
  have hmethods : Accepts _ _ methods [.rbrace, .eof] :=
    accepts_methods fuel hmethods (fun k w hk => by cases hk; rfl) (by simp; omega)
  unfold program
  refine .demand (.name fun n => hdecls.bind fun ds hds => .demand (hmethods.bind fun ms hms => ?_))
  refine .demand (.kind_before (p := (· == .eof)) (fun k w hk => by cases hk; rfl) fun k hk =>
    .pure ?_)
  rw [beq_iff_eq.1 hk]
  simp [Program.outline, Outline.ident, Mark.outline, gaps_concat hds, gaps_concat hms]

end Reader

end MicroJava
