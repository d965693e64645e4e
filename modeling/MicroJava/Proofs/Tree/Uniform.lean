import MicroJava.Proofs.Source.Tokens
import MicroJava.Proofs.Tree.Renaming
import MicroJava.Tree.Reading

/-! # Reading looks at kinds, and its bounds never bind

Two lists of tokens that differ in their spellings are read into trees that differ in their names.
This holds whatever the bounds on the two readings are, if they exceed the number of tokens, and
then no bound is met: every round of a loop and everything nested starts behind a token of its own,
and the end mark ends them all. -/

namespace MicroJava

variable {f : String → String}

/-- The same token, under another name if it has one. -/
structure Token.Renamed (f : String → String) (t₀ t : Token) : Prop where
  kind : t.kind = t₀.kind
  value : t.value = t₀.value
  text : t₀.kind = .ident → t.text = f t₀.text

/-- The same tokens are still to come, under other names. -/
structure Upcoming.Renamed (f : String → String) (up₀ up : Upcoming) : Prop where
  tokens : List.Forall₂ (Token.Renamed f) up₀.tokens up.tokens
  closed : Closed up₀.tokens

namespace Upcoming

variable {up₀ up : Upcoming}

theorem Renamed.ahead (h : Renamed f up₀ up) : Token.Renamed f up₀.ahead up.ahead := by
  cases h.tokens with
  | cons hahead _ => exact hahead

theorem Renamed.kind (h : Renamed f up₀ up) : up.kind = up₀.kind := h.ahead.kind

theorem length_pos (h : Closed up.tokens) (hk : up.kind ≠ .eof) : 0 < up.later.length := by
  have hlen := congrArg List.length (tokens_advance h hk)
  simp only [tokens, List.length_cons] at hlen
  omega

theorem length_advance (up : Upcoming) : up.advance.later.length = up.later.length - 1 := by
  obtain ⟨t, later⟩ := up
  cases later <;> rfl

theorem closed_advance (h : Closed up.tokens) : Closed up.advance.tokens := by
  by_cases hk : up.kind = .eof
  · rwa [advance_eof h hk]
  · rw [tokens_advance h hk] at h
    exact h.tail hk

end Upcoming

/-- Two readings have come equally far in the same tokens under other names, and neither has met a
bound. -/
structure Reading.Renamed (f : String → String) (up₀ up : Reading) : Prop extends
    Upcoming.Renamed f up₀.toUpcoming up.toUpcoming where
  shifts : up.shifts = up₀.shifts
  unbounded₀ : up₀.exhausted = false
  unbounded : up.exhausted = false

namespace Reading

variable {up₀ up : Reading}

theorem length_advance (up : Reading) : up.advance.later.length = up.later.length - 1 :=
  Upcoming.length_advance up.toUpcoming

theorem Renamed.start {up₀ up : Upcoming} (h : up₀.Renamed f up) :
    Renamed f (.start up₀) (.start up) :=
  ⟨h, rfl, rfl, rfl⟩

theorem Renamed.length_pos (h : Renamed f up₀ up) (hk : up₀.kind ≠ .eof) : 0 < up₀.later.length :=
  Upcoming.length_pos h.closed hk

theorem Renamed.advance (h : Renamed f up₀ up) : Renamed f up₀.advance up.advance where
  tokens := Upcoming.forall₂_advance h.tokens
  closed := Upcoming.closed_advance h.closed
  shifts := congrArg (· + 1) h.shifts
  unbounded₀ := h.unbounded₀
  unbounded := h.unbounded

end Reading

namespace Reader

open Reading (Renamed)

variable {α β : Type} {ren : α → α} {ren' : β → β} {n n' : Nat} {up₀ up : Reading}

/-- The two readers yield the same up to names and stay in step. At most `n` tokens are left. -/
structure Follows (f : String → String) (ren : α → α) (n : Nat) (r₀ r : Reader α)
    (up₀ up : Reading) : Prop where
  value : (r up).1 = ren (r₀ up₀).1
  renamed : Renamed f (r₀ up₀).2 (r up).2
  length : (r₀ up₀).2.later.length ≤ n

namespace Follows

theorem mono {r₀ r : Reader α} (h : Follows f ren n r₀ r up₀ up) (hn : n ≤ n') :
    Follows f ren n' r₀ r up₀ up :=
  ⟨h.value, h.renamed, Nat.le_trans h.length hn⟩

theorem pure {a₀ a : α} (h : Renamed f up₀ up) (ha : a = ren a₀) (hn : up₀.later.length ≤ n) :
    Follows f ren n (pure a₀) (pure a) up₀ up :=
  ⟨ha, h, hn⟩

theorem bind {r₀ r : Reader α} {g₀ g : α → Reader β} (h : Follows f ren n r₀ r up₀ up)
    (h' : ∀ a up₀' up', Renamed f up₀' up' → up₀'.later.length ≤ n →
      Follows f ren' n' (g₀ a) (g (ren a)) up₀' up') :
    Follows f ren' n' (r₀ >>= g₀) (r >>= g) up₀ up := by
  have hrun : (r >>= g) up = g (ren (r₀ up₀).1) (r up).2 := by
    rw [← h.value]
    rfl
  obtain ⟨hvalue, hrenamed, hlength⟩ := h' _ _ _ h.renamed h.length
  exact ⟨by rw [hrun, hvalue]; rfl, by rw [hrun]; exact hrenamed, hlength⟩

theorem last {r₀ r : Reader α} {g₀ g : α → β} (h : Follows f ren n r₀ r up₀ up)
    (hg : ∀ a, g (ren a) = ren' (g₀ a)) :
    Follows f ren' n (do return g₀ (← r₀)) (do return g (← r)) up₀ up :=
  h.bind fun a _ _ hr hn => .pure hr (hg a) hn

theorem kind {g₀ g : TokenKind → Reader α} (h : Renamed f up₀ up)
    (h' : Follows f ren n (g₀ up₀.kind) (g up₀.kind) up₀ up) :
    Follows f ren n (Reader.kind >>= g₀) (Reader.kind >>= g) up₀ up := by
  have hrun : (Reader.kind >>= g) up = g up₀.kind up := by
    rw [← h.kind]
    rfl
  exact ⟨by rw [hrun, h'.value]; rfl, by rw [hrun]; exact h'.renamed, h'.length⟩

theorem shift {g₀ g : Unit → Reader α}
    (h : Follows f ren n (g₀ ()) (g ()) up₀.advance up.advance) :
    Follows f ren n (Reader.shift >>= g₀) (Reader.shift >>= g) up₀ up :=
  ⟨h.value, h.renamed, h.length⟩

theorem value' {g₀ g : Int32 → Reader α} (h : Renamed f up₀ up)
    (h' : ∀ v, Follows f ren n (g₀ v) (g v) up₀.advance up.advance) :
    Follows f ren n (Reader.value >>= g₀) (Reader.value >>= g) up₀ up := by
  have hrun : (Reader.value >>= g) up = g up₀.ahead.value up.advance := by
    rw [← h.ahead.value]
    rfl
  have hnext := h' up₀.ahead.value
  exact ⟨by rw [hrun, hnext.value]; rfl, by rw [hrun]; exact hnext.renamed, hnext.length⟩

theorem demand {k : TokenKind} {g₀ g : Mark → Reader α} (h : Renamed f up₀ up)
    (h' : ∀ mark up₀' up', Renamed f up₀' up' → up₀'.later.length ≤ up₀.later.length →
      Follows f ren n (g₀ mark) (g mark) up₀' up') :
    Follows f ren n (Reader.demand k >>= g₀) (Reader.demand k >>= g) up₀ up := by
  have hone : Follows f id up₀.later.length (Reader.demand k) (Reader.demand k) up₀ up := by
    refine .kind h ?_
    split
    · exact .shift (.pure h.advance rfl (by rw [Reading.length_advance]; omega))
    · exact .pure h rfl (Nat.le_refl _)
  exact hone.bind h'

/-- The token is there and taken, or nothing happens. -/
theorem accept {k : TokenKind} {g₀ g : Bool → Reader α} (h : Renamed f up₀ up)
    (hyes : up₀.kind = k → Follows f ren n (g₀ true) (g true) up₀.advance up.advance)
    (hno : up₀.kind ≠ k → Follows f ren n (g₀ false) (g false) up₀ up) :
    Follows f ren n (Reader.accept k >>= g₀) (Reader.accept k >>= g) up₀ up := by
  have hrun : ∀ up : Reading, Reader.accept k up =
      if up.kind = k then (true, up.advance) else (false, up) := by
    intro up
    change (if up.kind = k then _ else _ : Reader Bool) up = _
    split <;> rfl
  have hbind : ∀ (g : Bool → Reader α) (up : Reading), (Reader.accept k >>= g) up =
      g (Reader.accept k up).1 (Reader.accept k up).2 := fun _ _ => rfl
  by_cases hk : up₀.kind = k
  · obtain ⟨hvalue, hrenamed, hlength⟩ := hyes hk
    constructor <;> simpa [hbind, hrun, h.kind, hk]
  · obtain ⟨hvalue, hrenamed, hlength⟩ := hno hk
    constructor <;> simpa [hbind, hrun, h.kind, hk]

/-- The name is there and taken, or nothing happens. -/
theorem name {g₀ g : Option String → Reader α} (h : Renamed f up₀ up)
    (hyes : up₀.kind = .ident → ∀ s,
      Follows f ren n (g₀ (some s)) (g (some (f s))) up₀.advance up.advance)
    (hno : up₀.kind ≠ .ident → Follows f ren n (g₀ none) (g none) up₀ up) :
    Follows f ren n (Reader.name >>= g₀) (Reader.name >>= g) up₀ up := by
  have hrun : ∀ up : Reading, Reader.name up =
      if up.kind = .ident then (some up.ahead.text, up.advance) else (none, up) := by
    intro up
    change (if up.kind = .ident then _ else _ : Reader (Option String)) up = _
    split <;> rfl
  have hbind : ∀ (g : Option String → Reader α) (up : Reading), (Reader.name >>= g) up =
      g (Reader.name up).1 (Reader.name up).2 := fun _ _ => rfl
  by_cases hk : up₀.kind = .ident
  · obtain ⟨hvalue, hrenamed, hlength⟩ := hyes hk up₀.ahead.text
    have htext : up.ahead.text = f up₀.ahead.text := h.ahead.text hk
    constructor <;> simpa [hbind, hrun, h.kind, hk, htext]
  · obtain ⟨hvalue, hrenamed, hlength⟩ := hno hk
    constructor <;> simpa [hbind, hrun, h.kind, hk]

end Follows

theorem follows_name (h : Renamed f up₀ up) :
    Follows f (Option.map f) up₀.later.length name name up₀ up := by
  have hname : Follows f (Option.map f) up₀.later.length (name >>= pure) (name >>= pure) up₀ up := by
    refine .name h (fun _ s => .pure h.advance rfl ?_) fun _ => .pure h rfl (Nat.le_refl _)
    rw [Reading.length_advance]
    omega
  rwa [bind_pure] at hname

/-! ## Loops -/

/-- A bound above zero leaves one more round. -/
theorem exists_round {k : Nat} (h : k < n) : ∃ m, n = m + 1 := ⟨n - 1, by omega⟩

theorem follows_skipTo (n₀ n : Nat) (stop : TokenKind → Bool) (hstop : stop .eof = true)
    (count : Nat) (h : Renamed f up₀ up) (h₀ : up₀.later.length < n₀) (h₁ : up₀.later.length < n) :
    Follows f id up₀.later.length (skipTo stop n₀ count) (skipTo stop n count) up₀ up := by
  induction n₀ generalizing n count up₀ up with
  | zero => exact absurd h₀ (Nat.not_lt_zero _)
  | succ n₀ ih =>
      obtain ⟨n, rfl⟩ := exists_round h₁
      rw [skipTo, skipTo]
      refine .kind h ?_
      split
      · exact .pure h rfl (Nat.le_refl _)
      · next hgo =>
          have hpos := h.length_pos fun heof => hgo (heof ▸ hstop)
          have hlen := Reading.length_advance up₀
          exact .shift ((ih n (count + 1) h.advance (by omega) (by omega)).mono (by omega))

theorem follows_many {more : TokenKind → Bool} (hmore : more .eof = false) {k : Nat}
    {item₀ item : Reader α}
    (hitem : ∀ up₀ up, Renamed f up₀ up → more up₀.kind = true → up₀.later.length ≤ k →
      Follows f ren (up₀.later.length - 1) item₀ item up₀ up)
    {n₀ n : Nat} (done : Array α) (h : Renamed f up₀ up) (hk : up₀.later.length ≤ k)
    (h₀ : up₀.later.length < n₀) (h₁ : up₀.later.length < n) :
    Follows f (List.map ren) up₀.later.length (many more item₀ n₀ done)
      (many more item n (done.map ren)) up₀ up := by
  induction n₀ generalizing n done up₀ up with
  | zero => exact absurd h₀ (Nat.not_lt_zero _)
  | succ n₀ ih =>
      obtain ⟨n, rfl⟩ := exists_round h₁
      rw [many, many]
      refine .kind h ?_
      split
      · next hyes =>
          have hpos := h.length_pos fun heof => by simp [heof, hmore] at hyes
          refine (hitem up₀ up h hyes hk).bind fun a up₀' up' h' hlen => ?_
          rw [← Array.map_push]
          exact (ih (done.push a) h' (by omega) (by omega) (by omega)).mono (by omega)
      · exact .pure h (Array.toList_map ..) (Nat.le_refl _)

/-- The items of a list that is read from its start. -/
theorem follows_items (more : TokenKind → Bool) (hmore : more .eof = false) {k : Nat}
    {item₀ item : Reader α}
    (hitem : ∀ up₀ up, Renamed f up₀ up → more up₀.kind = true → up₀.later.length ≤ k →
      Follows f ren (up₀.later.length - 1) item₀ item up₀ up)
    {n₀ n : Nat} (h : Renamed f up₀ up) (hk : up₀.later.length ≤ k)
    (h₀ : up₀.later.length < n₀) (h₁ : up₀.later.length < n) :
    Follows f (List.map ren) up₀.later.length (many more item₀ n₀ #[]) (many more item n #[])
      up₀ up := by
  simpa using follows_many hmore hitem #[] h hk h₀ h₁

theorem follows_behindCommas {k : Nat} {item₀ item : Reader α}
    (hitem : ∀ up₀ up, Renamed f up₀ up → up₀.later.length < k →
      Follows f ren up₀.later.length item₀ item up₀ up)
    {n₀ n : Nat} (done : Array α) (h : Renamed f up₀ up) (hk : up₀.later.length ≤ k)
    (h₀ : up₀.later.length < n₀) (h₁ : up₀.later.length < n) :
    Follows f (List.map ren) up₀.later.length (behindCommas item₀ n₀ done)
      (behindCommas item n (done.map ren)) up₀ up := by
  induction n₀ generalizing n done up₀ up with
  | zero => exact absurd h₀ (Nat.not_lt_zero _)
  | succ n₀ ih =>
      obtain ⟨n, rfl⟩ := exists_round h₁
      rw [behindCommas, behindCommas]
      have hlen := Reading.length_advance up₀
      refine .accept h (fun hcomma => ?_) fun _ => .pure h (Array.toList_map ..) (Nat.le_refl _)
      have hpos := h.length_pos (by simp [hcomma])
      refine (hitem _ _ h.advance (by omega)).bind fun a up₀' up' h' hlen' => ?_
      rw [← Array.map_push]
      exact (ih (done.push a) h' (by omega) (by omega) (by omega)).mono (by omega)

theorem follows_commaSeparated (n₀ n : Nat) {k : Nat} {item₀ item : Reader α}
    (hitem : ∀ up₀ up, Renamed f up₀ up → up₀.later.length < k →
      Follows f ren up₀.later.length item₀ item up₀ up)
    (h : Renamed f up₀ up) (hk : up₀.later.length < k)
    (h₀ : up₀.later.length < n₀) (h₁ : up₀.later.length < n) :
    Follows f (List.map ren) up₀.later.length (commaSeparated n₀ item₀) (commaSeparated n item)
      up₀ up := by
  refine (hitem up₀ up h hk).bind fun a up₀' up' h' hlen => ?_
  have hothers : Follows f (List.map ren) up₀'.later.length (behindCommas item₀ n₀ #[a])
      (behindCommas item n #[ren a]) up₀' up' := by
    simpa using follows_behindCommas hitem #[a] h' (by omega) (by omega : _ ≤ n₀)
      (by omega : _ ≤ n)
  exact hothers.mono hlen

/-! ## Expressions -/

/-- What is expected of the readers of nested expressions where fewer than `k` tokens are left. -/
def Nested (f : String → String) (ren : α → α) (k : Nat) (r₀ r : Reader α) : Prop :=
  ∀ up₀ up, Renamed f up₀ up → up₀.later.length < k →
    Follows f ren up₀.later.length r₀ r up₀ up

section Expressions

variable {k n₀ : Nat} {e₀ e : Reader Expr}

theorem follows_selectors (n₀ n : Nat) (he : Nested f (Expr.rename f) k e₀ e) (base : Designator)
    (h : Renamed f up₀ up) (hk : up₀.later.length ≤ k) (h₀ : up₀.later.length < n₀)
    (h₁ : up₀.later.length < n) :
    Follows f (Designator.rename f) up₀.later.length (selectors e₀ n₀ base)
      (selectors e n (base.rename f)) up₀ up := by
  induction n₀ generalizing n base up₀ up with
  | zero => exact absurd h₀ (Nat.not_lt_zero _)
  | succ n₀ ih =>
      obtain ⟨n, rfl⟩ := exists_round h₁
      rw [selectors, selectors]
      have hlen := Reading.length_advance up₀
      refine .kind h ?_
      split
      · next hperiod =>
          have hpos := h.length_pos (by simp [hperiod])
          refine .shift ((follows_name h.advance).bind fun field up₀' up' h' hlen' => ?_)
          have hnext := ih n (.field base field) h' (by omega) (by omega) (by omega)
          rw [Designator.rename] at hnext
          exact hnext.mono (by omega)
      · next hbracket =>
          have hpos := h.length_pos (by simp [hbracket])
          refine .shift ((he _ _ h.advance (by omega)).bind fun index up₁ up₁' h' hlen' => ?_)
          refine .demand h' fun rbracket up₀' up' h'' hlen'' => ?_
          have hnext := ih n (.index base index rbracket) h'' (by omega) (by omega) (by omega)
          rw [Designator.rename] at hnext
          exact hnext.mono (by omega)
      · exact .pure h rfl (Nat.le_refl _)

theorem follows_designator (he : Nested f (Expr.rename f) k e₀ e) (h : Renamed f up₀ up)
    (hk : up₀.later.length ≤ k) (h₀ : up₀.later.length < n₀) (h₁ : up₀.later.length < n) :
    Follows f (Designator.rename f)
      (if up₀.kind = .ident then up₀.later.length - 1 else up₀.later.length)
      (designator n₀ e₀) (designator n e) up₀ up := by
  have hlen := Reading.length_advance up₀
  refine .name h (fun hident s => ?_) fun hnone => ?_
  · rw [if_pos hident]
    have hnext := follows_selectors n₀ n he (.name s) h.advance (by omega) (by omega) (by omega)
    rw [Designator.rename] at hnext
    exact hnext.mono (by omega)
  · rw [if_neg hnone]
    exact .pure h (by rw [Designator.rename]) (Nat.le_refl _)

/-- The arguments of a call start behind a token that is not the end mark. -/
theorem follows_arguments (he : Nested f (Expr.rename f) k e₀ e) (h : Renamed f up₀ up)
    (hk : up₀.later.length ≤ k) (h₀ : up₀.later.length < n₀) (h₁ : up₀.later.length < n)
    (hparen : up₀.kind = .lparen) :
    Follows f (Prod.map (List.map (Expr.rename f)) id) (up₀.later.length - 1) (arguments n₀ e₀)
      (arguments n e) up₀ up := by
  have hlen := Reading.length_advance up₀
  have hpos := h.length_pos (by simp [hparen])
  unfold arguments
  refine .shift (.kind h.advance ?_)
  dsimp only
  split
  · have hlist := follows_commaSeparated n₀ n he h.advance (by omega) (by omega) (by omega)
    refine hlist.bind fun args up₁ up₁' h' hlen' => .demand h' fun rparen _ _ h'' hlen'' => ?_
    exact .pure h'' rfl (by omega)
  · have hnone : Follows f (List.map (Expr.rename f)) up₀.advance.later.length (pure []) (pure [])
        up₀.advance up.advance := .pure h.advance rfl (Nat.le_refl _)
    refine hnone.bind fun args up₁ up₁' h' hlen' => .demand h' fun rparen _ _ h'' hlen'' => ?_
    exact .pure h'' rfl (by omega)

theorem follows_allocation (he : Nested f (Expr.rename f) k e₀ e) (h : Renamed f up₀ up)
    (hk : up₀.later.length ≤ k) (hnew : up₀.kind = .kwNew) :
    Follows f (Expr.rename f) up₀.later.length (allocation e₀) (allocation e) up₀ up := by
  have hlen := Reading.length_advance up₀
  have hlen' := Reading.length_advance up₀.advance
  have hpos := h.length_pos (by simp [hnew])
  unfold allocation
  refine .shift (.name h.advance (fun _ s => ?_) fun _ => ?_)
  · refine .accept h.advance.advance (fun _ => ?_) fun _ => ?_
    · have hlen'' := Reading.length_advance up₀.advance.advance
      refine (he _ _ h.advance.advance.advance (by omega)).bind fun size up₁ up₁' h₁ hlen₁ => ?_
      refine .demand h₁ fun rbracket _ _ h₂ hlen₂ => .pure h₂ ?_ (by omega)
      rw [Expr.rename]
    · exact .pure h.advance.advance (by rw [Expr.rename]) (by omega)
  · exact .pure h.advance (by rw [Expr.rename]) (by omega)

theorem follows_factor (he : Nested f (Expr.rename f) k e₀ e) (h : Renamed f up₀ up)
    (hk : up₀.later.length ≤ k) (h₀ : up₀.later.length < n₀) (h₁ : up₀.later.length < n) :
    Follows f (Expr.rename f) up₀.later.length (factor n₀ e₀) (factor n e) up₀ up := by
  have hlen := Reading.length_advance up₀
  unfold factor
  refine .kind h ?_
  split
  · refine (follows_designator he h hk h₀ h₁).bind fun x up₁ up₁' h' hlen' => ?_
    have hle : up₁.later.length ≤ up₀.later.length := by
      split at hlen' <;> omega
    refine .kind h' ?_
    split
    · next hparen =>
        refine ((follows_arguments he h' (by omega) (by omega) (by omega) hparen).last ?_).mono
          (by omega)
        rintro ⟨args, rparen⟩
        simp [Expr.renameAll_eq_map]
    · exact .pure h' (by rw [Expr.rename]) hle
  · exact .value' h fun v => .pure h.advance (by rw [Expr.rename]) (by omega)
  · exact .value' h fun v => .pure h.advance (by rw [Expr.rename]) (by omega)
  · next hnew => exact follows_allocation he h hk hnew
  · next hparen =>
      have hpos := h.length_pos (by simp [hparen])
      refine .shift ((he _ _ h.advance (by omega)).bind fun inner up₁ up₁' h' hlen' => ?_)
      exact .demand h' fun rparen _ _ h'' hlen'' => .pure h'' (by rw [Expr.rename]) (by omega)
  · exact .pure h (by rw [Expr.rename]) (Nat.le_refl _)

theorem follows_operators (n₀ n : Nat) {op? : TokenKind → Option Arithmetic} (hop : op? .eof = none)
    {r₀ r : Reader Expr} (hr : Nested f (Expr.rename f) k r₀ r) (left : Expr)
    (h : Renamed f up₀ up) (hk : up₀.later.length ≤ k) (h₀ : up₀.later.length < n₀)
    (h₁ : up₀.later.length < n) :
    Follows f (Expr.rename f) up₀.later.length (operators op? r₀ n₀ left)
      (operators op? r n (left.rename f)) up₀ up := by
  induction n₀ generalizing n left up₀ up with
  | zero => exact absurd h₀ (Nat.not_lt_zero _)
  | succ n₀ ih =>
      obtain ⟨n, rfl⟩ := exists_round h₁
      rw [operators, operators]
      have hlen := Reading.length_advance up₀
      refine .kind h ?_
      split
      · next op hop' =>
          have hpos := h.length_pos fun heof => by simp [heof, hop] at hop'
          refine .shift ((hr _ _ h.advance (by omega)).bind fun right up₀' up' h' hlen' => ?_)
          have hnext := ih n (.binary op left right) h' (by omega) (by omega) (by omega)
          rw [Expr.rename] at hnext
          exact hnext.mono (by omega)
      · exact .pure h rfl (Nat.le_refl _)

theorem follows_term (he : Nested f (Expr.rename f) k e₀ e) (h : Renamed f up₀ up)
    (hk : up₀.later.length ≤ k) (h₀ : up₀.later.length < n₀) (h₁ : up₀.later.length < n) :
    Follows f (Expr.rename f) up₀.later.length (term n₀ e₀) (term n e) up₀ up := by
  refine (follows_factor he h hk h₀ h₁).bind fun left up₀' up' h' hlen => ?_
  have hfactor : Nested f (Expr.rename f) up₀.later.length (factor n₀ e₀) (factor n e) :=
    fun _ _ h hl => follows_factor he h (by omega) (by omega) (by omega)
  exact (follows_operators n₀ n rfl hfactor left h' hlen (by omega) (by omega)).mono hlen

theorem follows_sum (he : Nested f (Expr.rename f) k e₀ e) (h : Renamed f up₀ up)
    (hk : up₀.later.length ≤ k) (h₀ : up₀.later.length < n₀) (h₁ : up₀.later.length < n) :
    Follows f (Expr.rename f) up₀.later.length (sum n₀ e₀) (sum n e) up₀ up := by
  have hsigned : Follows f (Expr.rename f) up₀.later.length (signedTerm n₀ e₀) (signedTerm n e)
      up₀ up := by
    have hlen := Reading.length_advance up₀
    refine .accept h (fun _ => ?_) fun _ => follows_term he h hk h₀ h₁
    refine ((follows_term he h.advance (by omega) (by omega) (by omega)).last fun e => ?_).mono
      (by omega)
    rw [Expr.rename]
  refine hsigned.bind fun left up₀' up' h' hlen => ?_
  have hterm : Nested f (Expr.rename f) up₀.later.length (term n₀ e₀) (term n e) :=
    fun _ _ h hl => follows_term he h (by omega) (by omega) (by omega)
  exact (follows_operators n₀ n rfl hterm left h' hlen (by omega) (by omega)).mono hlen

theorem follows_expr (n₀ n : Nat) (h : Renamed f up₀ up) (h₀ : up₀.later.length + 1 < n₀)
    (h₁ : up₀.later.length + 1 < n) :
    Follows f (Expr.rename f) up₀.later.length (Reader.expr n₀) (Reader.expr n) up₀ up := by
  induction n₀ generalizing n up₀ up with
  | zero => exact absurd h₀ (Nat.not_lt_zero _)
  | succ n₀ ih =>
      obtain ⟨n, rfl⟩ := exists_round h₁
      have hnested : Nested f (Expr.rename f) up₀.later.length (Reader.expr n₀) (Reader.expr n) :=
        fun _ _ h hl => ih n h (by omega) (by omega)
      exact follows_sum hnested h (Nat.le_refl _) (by omega) (by omega)

theorem nested_expr {n₀ n : Nat} (h₀ : k < n₀) (h₁ : k < n) :
    Nested f (Expr.rename f) k (Reader.expr n₀) (Reader.expr n) :=
  fun _ _ h hl => follows_expr n₀ n h (by omega) (by omega)

end Expressions

theorem follows_condition {k : Nat} {e₀ e : Reader Expr} (he : Nested f (Expr.rename f) k e₀ e)
    (h : Renamed f up₀ up) (hk : up₀.later.length < k) :
    Follows f (Condition.rename f) up₀.later.length (condition e₀) (condition e) up₀ up := by
  unfold condition
  refine (he _ _ h hk).bind fun left up₁ up₁' h₁ hlen₁ => ?_
  have hrel : Follows f id up₁.later.length relop relop up₁ up₁' := by
    have hlen := Reading.length_advance up₁
    refine .kind h₁ ?_
    split
    · exact .shift (.pure h₁.advance rfl (by omega))
    · exact .pure h₁ rfl (Nat.le_refl _)
  refine hrel.bind fun rel up₂ up₂' h₂ hlen₂ => ?_
  exact .mono (.last (he _ _ h₂ (by omega)) fun right => rfl) (by omega)

/-! ## Statements -/

section Statements

variable {k n₀ : Nat} {e₀ e : Reader Expr} {s₀ s : Reader Stmt}

/-- What is expected of the readers of nested statements where fewer than `k` tokens are left. A
token is taken if there is one. -/
def NestedStmt (f : String → String) (k : Nat) (s₀ s : Reader Stmt) : Prop :=
  ∀ up₀ up, Renamed f up₀ up → up₀.later.length < k →
    Follows f (Stmt.rename f) (up₀.later.length - 1) s₀ s up₀ up

theorem follows_designatorStmt (he : Nested f (Expr.rename f) k e₀ e) (h : Renamed f up₀ up)
    (hk : up₀.later.length ≤ k) (h₀ : up₀.later.length < n₀) (h₁ : up₀.later.length < n)
    (hident : up₀.kind = .ident) :
    Follows f (Stmt.rename f) (up₀.later.length - 1) (designatorStmt n₀ e₀) (designatorStmt n e)
      up₀ up := by
  have hpos := h.length_pos (by simp [hident])
  have hx := follows_designator he h hk h₀ h₁
  rw [if_pos hident] at hx
  unfold designatorStmt
  refine hx.bind fun x up₁ up₁' h₁ hlen₁ => ?_
  have hlen := Reading.length_advance up₁
  refine .kind h₁ ?_
  split
  · refine .shift ((he _ _ h₁.advance (by omega)).bind fun y up₂ up₂' h₂ hlen₂ => ?_)
    refine .demand h₂ fun semicolon _ _ h₃ hlen₃ => .pure h₃ ?_ (by omega)
    rw [Stmt.rename]
  · next hparen =>
      refine (follows_arguments he h₁ (by omega) (by omega) (by omega) hparen).bind ?_
      rintro ⟨args, rparen⟩ up₂ up₂' h₂ hlen₂
      refine .demand h₂ fun semicolon _ _ h₃ hlen₃ => .pure h₃ ?_ (by omega)
      simp [Expr.renameAll_eq_map]
  · refine .demand h₁ fun semicolon _ _ h₂ hlen₂ => .pure h₂ ?_ (by omega)
    rw [Stmt.rename]

/-- A condition in its parentheses is read the same, and then the rest of the statement. -/
theorem Follows.guard {g₀ g : Mark → Condition → Mark → Reader α}
    (he : Nested f (Expr.rename f) k e₀ e) (h : Renamed f up₀ up) (hk : up₀.later.length < k)
    (h' : ∀ lparen cond rparen up₀' up', Renamed f up₀' up' →
      up₀'.later.length ≤ up₀.later.length →
      Follows f ren n (g₀ lparen cond rparen) (g lparen (cond.rename f) rparen) up₀' up') :
    Follows f ren n
      (do
        let lparen ← Reader.demand .lparen
        let cond ← condition e₀
        let rparen ← Reader.demand .rparen
        g₀ lparen cond rparen)
      (do
        let lparen ← Reader.demand .lparen
        let cond ← condition e
        let rparen ← Reader.demand .rparen
        g lparen cond rparen) up₀ up := by
  refine .demand h fun lparen up₁ up₁' h₁ hlen₁ => ?_
  refine (follows_condition he h₁ (by omega)).bind fun cond up₂ up₂' h₂ hlen₂ => ?_
  exact .demand h₂ fun rparen up₃ up₃' h₃ hlen₃ => h' lparen cond rparen _ _ h₃ (by omega)

theorem follows_conditional (he : Nested f (Expr.rename f) k e₀ e) (hs : NestedStmt f k s₀ s)
    (h : Renamed f up₀ up) (hk : up₀.later.length ≤ k) (hif : up₀.kind = .kwIf) :
    Follows f (Stmt.rename f) (up₀.later.length - 1) (conditional e₀ s₀) (conditional e s)
      up₀ up := by
  have hpos := h.length_pos (by simp [hif])
  have hlen := Reading.length_advance up₀
  refine .shift (.guard he h.advance (by omega) fun lparen cond rparen up₁ up₁' h₁ hlen₁ => ?_)
  refine (hs _ _ h₁ (by omega)).bind fun body up₂ up₂' h₂ hlen₂ => ?_
  have hlen' := Reading.length_advance up₂
  refine .accept h₂ (fun _ => ?_) fun _ => .pure h₂ (by rw [Stmt.rename]) (by omega)
  refine ((hs _ _ h₂.advance (by omega)).last fun alternative => ?_).mono (by omega)
  rw [Stmt.rename]

theorem follows_repetition (he : Nested f (Expr.rename f) k e₀ e) (hs : NestedStmt f k s₀ s)
    (h : Renamed f up₀ up) (hk : up₀.later.length ≤ k) (hwhile : up₀.kind = .kwWhile) :
    Follows f (Stmt.rename f) (up₀.later.length - 1) (repetition e₀ s₀) (repetition e s)
      up₀ up := by
  have hpos := h.length_pos (by simp [hwhile])
  have hlen := Reading.length_advance up₀
  refine .shift (.guard he h.advance (by omega) fun lparen cond rparen up₁ up₁' h₁ hlen₁ => ?_)
  refine ((hs _ _ h₁ (by omega)).last fun body => ?_).mono (by omega)
  rw [Stmt.rename]

theorem follows_returnStmt (he : Nested f (Expr.rename f) k e₀ e) (h : Renamed f up₀ up)
    (hk : up₀.later.length ≤ k) (hreturn : up₀.kind = .kwReturn) :
    Follows f (Stmt.rename f) (up₀.later.length - 1) (returnStmt e₀) (returnStmt e) up₀ up := by
  have hpos := h.length_pos (by simp [hreturn])
  have hlen := Reading.length_advance up₀
  unfold returnStmt
  refine .shift (.kind h.advance ?_)
  dsimp only
  split
  · have hsome : Follows f (Option.map (Expr.rename f)) up₀.advance.later.length (some <$> e₀)
        (some <$> e) up₀.advance up.advance := (he _ _ h.advance (by omega)).last fun _ => rfl
    refine hsome.bind fun value up₁ up₁' h₁ hlen₁ => .demand h₁ fun semicolon _ _ h₂ hlen₂ => ?_
    refine .pure h₂ ?_ (by omega)
    cases value <;> simp
  · have hnone : Follows f (Option.map (Expr.rename f)) up₀.advance.later.length (pure none)
        (pure none) up₀.advance up.advance := .pure h.advance rfl (Nat.le_refl _)
    refine hnone.bind fun value up₁ up₁' h₁ hlen₁ => .demand h₁ fun semicolon _ _ h₂ hlen₂ => ?_
    refine .pure h₂ ?_ (by omega)
    cases value <;> simp

theorem follows_readStmt (he : Nested f (Expr.rename f) k e₀ e) (h : Renamed f up₀ up)
    (hk : up₀.later.length ≤ k) (h₀ : up₀.later.length < n₀) (h₁ : up₀.later.length < n)
    (hread : up₀.kind = .kwRead) :
    Follows f (Stmt.rename f) (up₀.later.length - 1) (readStmt n₀ e₀) (readStmt n e) up₀ up := by
  have hpos := h.length_pos (by simp [hread])
  have hlen := Reading.length_advance up₀
  unfold readStmt
  refine .shift (.demand h.advance fun lparen up₁ up₁' h₁ hlen₁ => ?_)
  refine (follows_designator he h₁ (by omega) (by omega) (by omega)).bind
    fun target up₂ up₂' h₂ hlen₂ => ?_
  have hle : up₂.later.length ≤ up₁.later.length := by
    split at hlen₂ <;> omega
  refine .demand h₂ fun rparen up₃ up₃' h₃ hlen₃ => ?_
  refine .demand h₃ fun semicolon _ _ h₄ hlen₄ => .pure h₄ ?_ (by omega)
  rw [Stmt.rename]

theorem follows_printStmt (he : Nested f (Expr.rename f) k e₀ e) (h : Renamed f up₀ up)
    (hk : up₀.later.length ≤ k) (hprint : up₀.kind = .kwPrint) :
    Follows f (Stmt.rename f) (up₀.later.length - 1) (printStmt e₀) (printStmt e) up₀ up := by
  have hpos := h.length_pos (by simp [hprint])
  have hlen := Reading.length_advance up₀
  unfold printStmt
  refine .shift (.demand h.advance fun lparen up₁ up₁' h₁ hlen₁ => ?_)
  refine (he _ _ h₁ (by omega)).bind fun value up₂ up₂' h₂ hlen₂ => ?_
  have hwidth : Follows f id up₂.later.length widthSpec widthSpec up₂ up₂' := by
    have hlen₃ := Reading.length_advance up₂
    have hlen₄ := Reading.length_advance up₂.advance
    refine .accept h₂ (fun _ => .kind h₂.advance ?_) fun _ => .pure h₂ rfl (Nat.le_refl _)
    split
    · exact .value' h₂.advance fun w => .pure h₂.advance.advance rfl (by omega)
    · exact .pure h₂.advance rfl (by omega)
  refine hwidth.bind fun width up₃ up₃' h₃ hlen₃ => .demand h₃ fun rparen up₄ up₄' h₄ hlen₄ => ?_
  refine .demand h₄ fun semicolon _ _ h₅ hlen₅ => .pure h₅ ?_ (by omega)
  rw [Stmt.rename]
  rfl

theorem follows_blockBody (n₀ n : Nat) (hs : NestedStmt f k s₀ s) (h : Renamed f up₀ up)
    (hk : up₀.later.length < k) (h₀ : up₀.later.length < n₀) (h₁ : up₀.later.length < n) :
    Follows f (Prod.map (List.map (Stmt.rename f)) id) up₀.later.length (blockBody n₀ s₀)
      (blockBody n s) up₀ up := by
  have hbody := follows_items inBlock rfl (fun up₀ up h _ hl => hs up₀ up h (by omega)) h
    (Nat.le_sub_one_of_lt hk) h₀ h₁
  refine hbody.bind fun body up₁ up₁' h₁ hlen₁ => .demand h₁ fun rbrace _ _ h₂ hlen₂ => ?_
  exact .pure h₂ rfl (by omega)

theorem follows_startedStmt (n₀ n : Nat) {b : Nat} (he : Nested f (Expr.rename f) k e₀ e)
    (hs : NestedStmt f k s₀ s) (h : Renamed f up₀ up) (hk : up₀.later.length ≤ k)
    (h₀ : up₀.later.length < n₀) (h₁ : up₀.later.length < n) (hb : up₀.later.length - 1 ≤ b)
    (hb' : up₀.kind.startsStatement = false → up₀.later.length ≤ b) :
    Follows f (Stmt.rename f) b (startedStmt n₀ e₀ s₀) (startedStmt n e s) up₀ up := by
  have hlen := Reading.length_advance up₀
  unfold startedStmt
  refine .kind h ?_
  split
  · next hident => exact (follows_designatorStmt he h hk h₀ h₁ hident).mono hb
  · next hif => exact (follows_conditional he hs h hk hif).mono hb
  · next hwhile => exact (follows_repetition he hs h hk hwhile).mono hb
  · next hreturn => exact (follows_returnStmt he h hk hreturn).mono hb
  · next hread => exact (follows_readStmt he h hk h₀ h₁ hread).mono hb
  · next hprint => exact (follows_printStmt he h hk hprint).mono hb
  · next hbrace =>
      have hpos := h.length_pos (by simp [hbrace])
      have hbody := follows_blockBody n₀ n hs h.advance (by omega) (by omega) (by omega)
      refine .shift (hbody.bind ?_)
      rintro ⟨body, rbrace⟩ up₁ up₁' h₁ hlen₁
      refine .pure h₁ ?_ (by omega)
      simp [Stmt.renameAll_eq_map]
  · exact .shift (.pure h.advance (by rw [Stmt.rename]) (by omega))
  · refine .pure h (by rw [Stmt.rename]) (hb' ?_)
    unfold TokenKind.startsStatement
    split <;> simp_all

theorem follows_stmtWith (he : Nested f (Expr.rename f) k e₀ e) (hs : NestedStmt f k s₀ s)
    (h : Renamed f up₀ up) (hk : up₀.later.length ≤ k) (h₀ : up₀.later.length < n₀)
    (h₁ : up₀.later.length < n) :
    Follows f (Stmt.rename f) (up₀.later.length - 1) (stmtWith n₀ e₀ s₀) (stmtWith n e s)
      up₀ up := by
  have hlen := Reading.length_advance up₀
  unfold stmtWith
  refine .kind h ?_
  split
  · next hstarts =>
      refine follows_startedStmt n₀ n he hs h hk h₀ h₁ (Nat.le_refl _) fun hnot => ?_
      simp [hnot] at hstarts
  · have hskip := follows_skipTo n₀ n stopsStmtSkip rfl 1 h.advance (by omega) (by omega)
    refine .shift (hskip.bind fun skipped up₁ up₁' h₁ hlen₁ => ?_)
    have hnext : ∀ (semicolon : Bool) (up₀' up' : Reading), Renamed f up₀' up' →
        up₀'.later.length ≤ up₀.later.length - 1 →
        Follows f (Stmt.rename f) (up₀.later.length - 1)
          (do return .junk skipped semicolon (← startedStmt n₀ e₀ s₀))
          (do return .junk skipped semicolon (← startedStmt n e s)) up₀' up' := by
      intro semicolon up₀' up' h' hlen'
      refine .last (follows_startedStmt n₀ n he hs h' (by omega) (by omega) (by omega) (by omega)
        fun _ => hlen') fun next => ?_
      rw [Stmt.rename]
    have hlen' := Reading.length_advance up₁
    exact .accept h₁ (fun _ => hnext true _ _ h₁.advance (by omega))
      fun _ => hnext false _ _ h₁ (by omega)

theorem follows_stmt (n₀ n : Nat) (h : Renamed f up₀ up) (h₀ : up₀.later.length + 1 < n₀)
    (h₁ : up₀.later.length + 1 < n) :
    Follows f (Stmt.rename f) (up₀.later.length - 1) (Reader.stmt n₀) (Reader.stmt n) up₀ up := by
  induction n₀ generalizing n up₀ up with
  | zero => exact absurd h₀ (Nat.not_lt_zero _)
  | succ n₀ ih =>
      obtain ⟨n, rfl⟩ := exists_round h₁
      have hnested : NestedStmt f up₀.later.length (Reader.stmt n₀) (Reader.stmt n) :=
        fun _ _ h hl => ih n h (by omega) (by omega)
      exact follows_stmtWith (nested_expr (by omega) (by omega)) hnested h (Nat.le_refl _)
        (by omega) (by omega)

end Statements

/-! ## Declarations -/

section Declarations

variable {k n₀ : Nat}

theorem follows_typeRef (h : Renamed f up₀ up) :
    Follows f (TypeRef.rename f)
      (if up₀.kind = .ident then up₀.later.length - 1 else up₀.later.length) typeRef typeRef
      up₀ up := by
  have hlen := Reading.length_advance up₀
  have hlen' := Reading.length_advance up₀.advance
  refine .name h (fun hident s => ?_) fun hnone => ?_
  · rw [if_pos hident]
    refine .accept h.advance (fun _ => ?_) fun _ => .pure h.advance rfl (by omega)
    exact .demand h.advance.advance fun mark _ _ h' hlen' => .pure h' rfl (by omega)
  · rw [if_neg hnone]
    exact .pure h rfl (Nat.le_refl _)

theorem follows_typeRef_le (h : Renamed f up₀ up) :
    Follows f (TypeRef.rename f) up₀.later.length typeRef typeRef up₀ up :=
  (follows_typeRef h).mono (by split <;> omega)

theorem follows_varDecl (n₀ n : Nat) (h : Renamed f up₀ up) (h₀ : up₀.later.length < n₀)
    (h₁ : up₀.later.length < n) (hident : up₀.kind = .ident) :
    Follows f (VarDecl.rename f) (up₀.later.length - 1) (varDecl n₀) (varDecl n) up₀ up := by
  have htype := follows_typeRef h
  rw [if_pos hident] at htype
  unfold varDecl
  refine htype.bind fun type up₁ up₁' h₁ hlen₁ => ?_
  refine (follows_name h₁).bind fun first up₂ up₂' h₂ hlen₂ => ?_
  have hothers : Follows f (List.map (Option.map f)) up₂.later.length (behindCommas name n₀ #[])
      (behindCommas name n #[]) up₂ up₂' := by
    simpa using follows_behindCommas (fun _ _ h _ => follows_name h) #[] h₂ (Nat.le_refl _)
      (by omega : _ ≤ n₀) (by omega : _ ≤ n)
  refine hothers.bind fun others up₃ up₃' h₃ hlen₃ => .demand h₃ fun semicolon _ _ h₄ hlen₄ => ?_
  exact .pure h₄ rfl (by omega)

theorem follows_varDecls (n₀ n : Nat) (h : Renamed f up₀ up) (h₀ : up₀.later.length < n₀)
    (h₁ : up₀.later.length < n) :
    Follows f (List.map (VarDecl.rename f)) up₀.later.length (varDecls n₀) (varDecls n) up₀ up :=
  follows_items (· == .ident) rfl (fun up₀' _ h hident hl =>
    follows_varDecl n₀ n h (by omega) (by omega) (beq_iff_eq.1 hident)) h (Nat.le_refl _) h₀ h₁

theorem follows_constDecl (h : Renamed f up₀ up) :
    Follows f (ConstDecl.rename f) (up₀.later.length - 1) constDecl constDecl up₀ up := by
  have hlen := Reading.length_advance up₀
  unfold constDecl
  refine .shift ((follows_typeRef_le h.advance).bind fun type up₁ up₁' h₁ hlen₁ => ?_)
  refine (follows_name h₁).bind fun name up₂ up₂' h₂ hlen₂ => ?_
  refine .demand h₂ fun assign up₃ up₃' h₃ hlen₃ => ?_
  have hliteral : Follows f id up₃.later.length literal literal up₃ up₃' := by
    have hlen' := Reading.length_advance up₃
    refine .kind h₃ ?_
    split
    · exact .value' h₃ fun v => .pure h₃.advance rfl (by omega)
    · exact .value' h₃ fun v => .pure h₃.advance rfl (by omega)
    · exact .pure h₃ rfl (Nat.le_refl _)
  refine hliteral.bind fun value up₄ up₄' h₄ hlen₄ => .demand h₄ fun semicolon _ _ h₅ hlen₅ => ?_
  exact .pure h₅ rfl (by omega)

theorem follows_classDecl (n₀ n : Nat) (h : Renamed f up₀ up) (h₀ : up₀.later.length < n₀)
    (h₁ : up₀.later.length < n) :
    Follows f (ClassDecl.rename f) (up₀.later.length - 1) (classDecl n₀) (classDecl n) up₀ up := by
  have hlen := Reading.length_advance up₀
  unfold classDecl
  refine .shift ((follows_name h.advance).bind fun name up₁ up₁' h₁ hlen₁ => ?_)
  refine .demand h₁ fun lbrace up₂ up₂' h₂ hlen₂ => ?_
  refine (follows_varDecls n₀ n h₂ (by omega) (by omega)).bind fun fields up₃ up₃' h₃ hlen₃ => ?_
  exact .demand h₃ fun rbrace _ _ h₄ hlen₄ => .pure h₄ rfl (by omega)

theorem follows_declaration (n₀ n : Nat) (h : Renamed f up₀ up) (h₀ : up₀.later.length < n₀)
    (h₁ : up₀.later.length < n) :
    Follows f (Declaration.rename f) (up₀.later.length - 1) (declaration n₀) (declaration n)
      up₀ up := by
  have hlen := Reading.length_advance up₀
  unfold declaration
  refine .kind h ?_
  split
  · exact (follows_constDecl h).last fun _ => rfl
  · exact (follows_classDecl n₀ n h h₀ h₁).last fun _ => rfl
  · next hident => exact (follows_varDecl n₀ n h h₀ h₁ hident).last fun _ => rfl
  · have hskip := follows_skipTo n₀ n stopsDeclSkip rfl 1 h.advance (by omega) (by omega)
    refine .shift (hskip.bind fun skipped up₁ up₁' h₁ hlen₁ => ?_)
    have hlen' := Reading.length_advance up₁
    exact .accept h₁ (fun _ => .pure h₁.advance rfl (by omega)) fun _ => .pure h₁ rfl (by omega)

theorem follows_param (h : Renamed f up₀ up) :
    Follows f (Param.rename f) up₀.later.length param param up₀ up := by
  unfold param
  refine (follows_typeRef_le h).bind fun type up₁ up₁' h₁ hlen₁ => ?_
  exact .mono (.last (follows_name h₁) fun _ => rfl) hlen₁

theorem follows_result (h : Renamed f up₀ up) {b : Nat} (hb : up₀.later.length - 1 ≤ b)
    (hb' : startsMethod up₀.kind = false → up₀.later.length ≤ b) :
    Follows f (ResultType.rename f) b
      (do if ← accept .kwVoid then pure .void else .type <$> typeRef)
      (do if ← accept .kwVoid then pure .void else .type <$> typeRef) up₀ up := by
  have hlen := Reading.length_advance up₀
  refine .accept h (fun _ => .pure h.advance rfl (by omega)) fun hvoid => ?_
  refine .mono (.last (follows_typeRef h) fun _ => rfl) ?_
  split
  · exact hb
  · next hident =>
      refine hb' ?_
      unfold startsMethod
      split <;> simp_all

/-- One of two readers is chosen the same in both, and what follows takes what it yields. -/
theorem Follows.choose {γ : Type} {c : Reader γ} {p : γ → Prop} [DecidablePred p]
    {r₀ r₀' r r' : Reader α} {g₀ g : α → Reader β}
    (h : Follows f ren n (do if p (← c) then r₀ else r₀') (do if p (← c) then r else r') up₀ up)
    (h' : ∀ a up₀' up', Renamed f up₀' up' → up₀'.later.length ≤ n →
      Follows f ren' n' (g₀ a) (g (ren a)) up₀' up') :
    Follows f ren' n'
      (do
        let a ← if p (← c) then r₀ else r₀'
        g₀ a)
      (do
        let a ← if p (← c) then r else r'
        g a) up₀ up := by
  have heq : ∀ (r r' : Reader α) (g : α → Reader β), (do
      let a ← if p (← c) then r else r'
      g a) = (do if p (← c) then r else r') >>= g := by
    intro r r' g
    simp only [bind_assoc]
    congr 1
    funext x
    split <;> rfl
  rw [heq, heq]
  exact h.bind h'

theorem follows_method (n₀ n : Nat) (h : Renamed f up₀ up) (h₀ : up₀.later.length < n₀)
    (h₁ : up₀.later.length < n) (hstart : startsMethod up₀.kind = true) :
    Follows f (Method.rename f) (up₀.later.length - 1) (method n₀) (method n) up₀ up := by
  have hpos : 0 < up₀.later.length := h.length_pos fun heof => by
    simp [heof, startsMethod] at hstart
  unfold method
  refine (follows_result h (Nat.le_refl _) fun hnot => ?_).choose fun result up₁ up₁' h₁ hlen₁ => ?_
  · simp [hnot] at hstart
  refine (follows_name h₁).bind fun name up₂ up₂' h₂ hlen₂ => ?_
  refine .demand h₂ fun lparen up₃ up₃' h₃ hlen₃ => ?_
  have hparams : Follows f (List.map (Param.rename f)) up₃.later.length
      (do if (← kind) = .ident then commaSeparated n₀ param else pure [])
      (do if (← kind) = .ident then commaSeparated n param else pure []) up₃ up₃' := by
    refine .kind h₃ ?_
    split
    · exact follows_commaSeparated n₀ n (fun _ _ h _ => follows_param h) h₃ (Nat.lt_succ_self _)
        (by omega) (by omega)
    · exact .pure h₃ rfl (Nat.le_refl _)
  refine hparams.choose fun params up₄ up₄' h₄ hlen₄ => .demand h₄ fun rparen up₅ up₅' h₅ hlen₅ => ?_
  refine (follows_varDecls n₀ n h₅ (by omega) (by omega)).bind fun locals up₆ up₆' h₆ hlen₆ => ?_
  refine .demand h₆ fun lbrace up₇ up₇' h₇ hlen₇ => ?_
  have hnested : NestedStmt f up₀.later.length (Reader.stmt n₀) (Reader.stmt n) :=
    fun _ _ h hl => follows_stmt n₀ n h (by omega) (by omega)
  have hbody := follows_blockBody n₀ n hnested h₇ (by omega) (by omega) (by omega)
  refine hbody.bind ?_
  rintro ⟨body, rbrace⟩ up₈ up₈' h₈ hlen₈
  refine .pure h₈ ?_ (by omega)
  simp [Method.rename, Stmt.renameAll_eq_map]

end Declarations

/-- Reading renamed tokens yields the renamed tree, whatever the bounds. -/
theorem follows_program (n₀ n : Nat) (h : Renamed f up₀ up) (h₀ : up₀.later.length < n₀)
    (h₁ : up₀.later.length < n) :
    Follows f (Program.rename f) up₀.later.length (program n₀) (program n) up₀ up := by
  unfold program
  refine .demand h fun keyword up₁ up₁' h₁ hlen₁ => ?_
  refine (follows_name h₁).bind fun name up₂ up₂' h₂ hlen₂ => ?_
  have hdecls := follows_items inDeclarations rfl (fun up₀' _ h _ hl =>
      follows_declaration n₀ n h (by omega) (by omega)) h₂ (Nat.le_refl up₂.later.length)
    (by omega : _ ≤ n₀) (by omega : _ ≤ n)
  refine hdecls.bind fun declarations up₃ up₃' h₃ hlen₃ => ?_
  refine .demand h₃ fun lbrace up₄ up₄' h₄ hlen₄ => ?_
  have hmethods := follows_items startsMethod rfl (fun up₀' _ h hstart hl =>
      follows_method n₀ n h (by omega) (by omega) hstart) h₄ (Nat.le_refl up₄.later.length)
    (by omega : _ ≤ n₀) (by omega : _ ≤ n)
  refine hmethods.bind fun methods up₅ up₅' h₅ hlen₅ => ?_
  refine .demand h₅ fun rbrace up₆ up₆' h₆ hlen₆ => .kind h₆ ?_
  exact .pure h₆ rfl (by omega)

end Reader

end MicroJava
