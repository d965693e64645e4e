import Mathlib.Data.List.Count
import Mathlib.Data.List.Nodup
import MicroJava.Proofs.Compile.Absorption.Declarations
import MicroJava.Proofs.Compile.Spelling

/-! # A misspelt name is reported once

A name may stand in many places of a text, and only one of them is misspelt, so no renaming takes
one tree to the other. The names are told apart by their numbers instead: the tree of the numbered
tokens, spelt as in the text, is the tree of the text, and with one of the spellings replaced it is
the tree of the misspelt text. Both passes walk this one tree, and the second one notes what the
first one does not, once. -/

namespace MicroJava

/-! ## Numbered names -/

/-- Stands for the name with the number `i`. -/
def numeral (i : Nat) : String := String.ofList (List.replicate i 'i')

@[simp] theorem length_numeral (i : Nat) : (numeral i).length = i := by simp [numeral]

theorem numeral_injective : Function.Injective numeral :=
  Function.LeftInverse.injective length_numeral

/-- The same tokens with their names numbered from `i` on. -/
def numbered : Nat → List Token → List Token
  | _, [] => []
  | i, t :: ts =>
      if t.kind = .ident then { t with text := numeral i } :: numbered (i + 1) ts
      else t :: numbered i ts

theorem kinds_numbered (i : Nat) (ts : List Token) :
    (numbered i ts).map (·.kind) = ts.map (·.kind) := by
  fun_induction numbered i ts with
  | case1 => rfl
  | case2 i t ts _ ih => rw [List.map_cons, List.map_cons, ih]
  | case3 i t ts _ ih => rw [List.map_cons, List.map_cons, ih]

theorem identifiers_numbered (i : Nat) (ts : List Token) :
    identifiers (numbered i ts) = (List.range' i (identifiers ts).length).map numeral := by
  fun_induction numbered i ts with
  | case1 => rfl
  | case2 i t ts h ih => simpa [identifiers, h, List.range'_succ] using ih
  | case3 i t ts h ih => simpa [identifiers, h] using ih

/-- The same token up to its place and its text. -/
structure Token.Akin (t t' : Token) : Prop where
  kind : t'.kind = t.kind
  value : t'.value = t.value
  issue : t'.issue = t.issue

instance (t t' : Token) : Decidable (t.Akin t') :=
  decidable_of_iff (t'.kind = t.kind ∧ t'.value = t.value ∧ t'.issue = t.issue)
    ⟨fun ⟨hkind, hvalue, hissue⟩ => ⟨hkind, hvalue, hissue⟩, fun h => ⟨h.kind, h.value, h.issue⟩⟩

theorem Token.Akin.refl (t : Token) : t.Akin t := ⟨rfl, rfl, rfl⟩

/-- Numbered tokens get back the names that `f` gives to the numbers. -/
theorem renamed_numbered {f : String → String} {ts ts' : List Token}
    (h : List.Forall₂ Token.Akin ts ts') (i : Nat)
    (hf : ∀ j name, (identifiers ts')[j]? = some name → f (numeral (i + j)) = name) :
    List.Forall₂ (Token.Renamed f) (numbered i ts) ts' := by
  induction h generalizing i with
  | nil => exact .nil
  | @cons t t' ts ts' ht _ ih =>
      rw [numbered]
      split
      · next hident =>
          have hident' : t'.kind = .ident := ht.kind.trans hident
          have hnames : identifiers (t' :: ts') = t'.text :: identifiers ts' := by
            simp [identifiers, hident']
          rw [hnames] at hf
          refine .cons ⟨ht.kind, ht.value, fun _ => (hf 0 t'.text rfl).symm⟩ (ih (i + 1) ?_)
          intro j name hname
          rw [Nat.add_assoc, Nat.add_comm 1]
          exact hf (j + 1) name hname
      · next hident =>
          have hnames : identifiers (t' :: ts') = identifiers ts' := by
            simp [identifiers, ht.kind, hident]
          rw [hnames] at hf
          exact .cons ⟨ht.kind, ht.value, fun hk => absurd hk hident⟩ (ih i hf)

theorem Closed.of_kinds {ts ts' : List Token} (h : Closed ts)
    (hkinds : ts'.map (·.kind) = ts.map (·.kind)) : Closed ts' := by
  obtain ⟨before, last, rfl, hlast, hbefore⟩ := h
  rw [List.map_append, List.map_eq_append_iff] at hkinds
  obtain ⟨before', rest, rfl, hbefore', hrest⟩ := hkinds
  obtain ⟨last', rfl, hlast'⟩ := List.map_eq_singleton_iff.1 hrest
  refine ⟨before', last', rfl, hlast'.trans hlast, fun t ht heof => ?_⟩
  have hmem : TokenKind.eof ∈ before'.map (·.kind) := List.mem_map.2 ⟨t, ht, heof⟩
  rw [hbefore'] at hmem
  obtain ⟨u, hu, hkind⟩ := List.mem_map.1 hmem
  exact hbefore u hu hkind

/-- Numbered tokens are there to be read, too. -/
theorem Upcoming.exists_numbered (up : Upcoming) :
    ∃ up₀ : Upcoming, up₀.tokens = numbered 0 up.tokens := by
  cases hnumbered : numbered 0 up.tokens with
  | nil =>
      have hkinds := kinds_numbered 0 up.tokens
      rw [hnumbered] at hkinds
      simp [Upcoming.tokens] at hkinds
  | cons t ts => exact ⟨⟨t, ts⟩, rfl⟩

/-- The names of a tree without gaps that was read from numbered tokens are their numbers. -/
theorem Program.names_read_numbered {up₀ : Upcoming} {ts : List Token}
    (h : up₀.tokens = numbered 0 ts) (hc : Closed up₀.tokens)
    (hgaps : (Program.read up₀).outline.gaps = 0) :
    (Program.read up₀).outline.names.map (·.2) =
      (List.range (Program.read up₀).outline.names.length).map numeral := by
  obtain ⟨ts', hts, hspans, -⟩ := Upcoming.spans_read hc
  rw [Program.read] at hgaps ⊢
  generalize up₀.read = result at hgaps hts hspans ⊢
  have hprefix : result.1.outline.names.map (·.2) <+: identifiers (numbered 0 ts) := by
    rw [hspans.names hgaps, ← h, hts, identifiers_append]
    exact List.prefix_append _ _
  rw [identifiers_numbered, ← List.range_eq_range'] at hprefix
  have hlength := hprefix.length_le
  rw [List.length_map, List.length_map, List.length_range] at hlength
  rw [List.prefix_iff_eq_take.1 hprefix, List.length_map, ← List.map_take, List.take_range,
    Nat.min_eq_left hlength]

/-! ## The marked name -/

/-- Gives the numbered names the spellings `names`. There are no others. -/
def spelt (names : List String) (name : String) : String := names.getD name.length "int"

theorem spelt_numeral {names : List String} {i : Nat} {name : String}
    (h : names[i]? = some name) : spelt names (numeral i) = name := by
  simp [spelt, h]

theorem spelt_ne {names : List String} {fresh : String} (hint : fresh ≠ "int")
    (h : fresh ∉ names) (name : String) : spelt names name ≠ fresh := by
  rw [spelt, List.getD_eq_getElem?_getD]
  cases hname : names[name.length]? with
  | none => exact hint.symm
  | some spelling => exact fun heq => h (heq ▸ List.mem_of_getElem? hname)

namespace Slip

variable {c : Slip} {k : Nat}

theorem misspelling_numeral {names : List String} (hspelling : c.spelling = spelt names)
    (hmark : c.mark = numeral k) {i : Nat} {name : String}
    (h : (names.set k c.fresh)[i]? = some name) : c.misspelling (numeral i) = name := by
  by_cases hi : i = k
  · subst hi
    rw [List.getElem?_set_self'] at h
    obtain ⟨_, _, rfl⟩ := Option.map_eq_some_iff.1 h
    rw [← hmark, misspelling_mark]
    rfl
  · rw [List.getElem?_set_ne (Ne.symm hi)] at h
    have hne : numeral i ≠ c.mark := fun heq => hi (numeral_injective (heq.trans hmark))
    rw [misspelling_of_ne hne, hspelling, spelt_numeral h]

/-- The name with the number `k` is the marked one. -/
theorem getElem?_mark {names : List (Role × String)} {role : Role} {name : String}
    (hnames : names.map (·.2) = (List.range names.length).map numeral) (hmark : c.mark = numeral k)
    (h : (names.map fun n => (n.1, c.spelling n.2))[k]? = some (role, name)) :
    names[k]? = some (role, c.mark) ∧ c.spelling c.mark = name := by
  rw [List.getElem?_map, Option.map_eq_some_iff] at h
  obtain ⟨⟨role', number⟩, hk, heq⟩ := h
  obtain ⟨rfl, rfl⟩ := Prod.mk.inj heq
  have hnumber : (names.map (·.2))[k]? = some number := by
    rw [List.getElem?_map, hk]
    rfl
  rw [hnames, List.getElem?_map, List.getElem?_range (List.getElem?_eq_some_iff.1 hk).1,
    Option.map_some, ← hmark] at hnumber
  obtain rfl := Option.some.inj hnumber
  exact ⟨hk, rfl⟩

/-- Among numbered names the marked one is there once. -/
theorem due_numbered {names : List (Role × String)}
    (hnames : names.map (·.2) = (List.range names.length).map numeral) (hmark : c.mark = numeral k)
    (hk : names[k]? = some (c.role, c.mark)) : c.Due 0 names ∧ c.hits names = 1 := by
  have hhits : c.hits names = 1 := by
    have hcount : c.hits names = (names.map (·.2)).count (numeral k) := by
      rw [hits, List.count, List.countP_map, hmark]
      rfl
    rw [hcount, hnames, List.count_map_of_injective _ _ numeral_injective]
    refine List.count_eq_one_of_mem List.nodup_range (List.mem_range.2 ?_)
    exact (List.getElem?_eq_some_iff.1 hk).1
  refine ⟨⟨by rw [hhits], ?_⟩, hhits⟩
  intro r hr
  obtain ⟨i, hi⟩ := List.mem_iff_getElem?.1 hr
  have hnumber : (names.map (·.2))[i]? = some (numeral k) := by
    rw [List.getElem?_map, hi, ← hmark]
    rfl
  rw [hnames, List.getElem?_map, List.getElem?_range (List.getElem?_eq_some_iff.1 hi).1,
    Option.map_some] at hnumber
  obtain rfl := numeral_injective (Option.some.inj hnumber)
  exact congrArg Prod.fst (Option.some.inj (hi.symm.trans hk))

/-- Before the first token nothing differs. -/
theorem relates_start {up up' : Upcoming}
    (hissues : List.Forall₂ (fun t t' : Token => t'.issue = t.issue) up.tokens up'.tokens)
    (hclean : (Pass.start up).errors c.strictLiterals = [])
    (hpredeclared : c.fresh ∉ NameTable.predeclared) :
    c.Relates 0 (Pass.start up) (Pass.start up') := by
  have herrors : (Pass.start up').errors c.strictLiterals = [] := by
    refine Check.errors_arrival ?_ #[] hclean
    cases hissues with
    | cons hahead _ => exact hahead
  refine ⟨NameTable.fades_initial, NameTable.known_initial,
    NameTable.lacks_initial hpredeclared, fun h => h, hissues, ?_, ?_⟩
  · rw [herrors, List.length_nil]
  · rw [herrors]
    exact fun d hd => absurd hd List.not_mem_nil

end Slip

/-! ## A slip in a text -/

/-- The tokens `ts'` are the tokens `ts`, but the name with the number `k` is spelt `fresh`. -/
structure Misspelt (k : Nat) (fresh : String) (ts ts' : List Token) : Prop where
  tokens : List.Forall₂ Token.Akin ts ts'
  names : identifiers ts' = (identifiers ts).set k fresh

/-- Both texts have one tree, in two spellings. -/
theorem Misspelt.exists_tree {up up' : Upcoming} {c : Slip} {k : Nat}
    (h : Misspelt k c.fresh up.tokens up'.tokens) (hc : Closed up.tokens)
    (hspelling : c.spelling = spelt (identifiers up.tokens)) (hmark : c.mark = numeral k)
    (hgaps : (Program.read up).outline.gaps = 0) :
    ∃ q : Program, Program.read up = q.rename c.spelling ∧
      Program.read up' = q.rename c.misspelling ∧
      q.outline.names.map (·.2) = (List.range q.outline.names.length).map numeral := by
  obtain ⟨up₀, hup₀⟩ := up.exists_numbered
  have hc₀ : Closed up₀.tokens := hc.of_kinds (hup₀ ▸ kinds_numbered 0 up.tokens)
  have hread : Program.read up = (Program.read up₀).rename c.spelling := by
    refine Program.read_renamed ⟨?_, hc₀⟩
    rw [hup₀]
    refine renamed_numbered (List.forall₂_same.2 fun t _ => .refl t) 0 fun j name hname => ?_
    rw [Nat.zero_add, hspelling, spelt_numeral hname]
  have hread' : Program.read up' = (Program.read up₀).rename c.misspelling := by
    refine Program.read_renamed ⟨?_, hc₀⟩
    rw [hup₀]
    refine renamed_numbered h.tokens 0 fun j name hname => ?_
    rw [Nat.zero_add]
    rw [h.names] at hname
    exact Slip.misspelling_numeral hspelling hmark hname
  refine ⟨Program.read up₀, hread, hread', Program.names_read_numbered hup₀ hc₀ ?_⟩
  rw [hread, Program.outline_rename] at hgaps
  exact hgaps

/-- The pass over the misspelt text finds the mistake and nothing else. -/
theorem Misspelt.errors {up up' : Upcoming} {c : Slip} {k : Nat} {name : String}
    (h : Misspelt k c.fresh up.tokens up'.tokens) (hc : Closed up.tokens)
    (hspelling : c.spelling = spelt (identifiers up.tokens)) (hmark : c.mark = numeral k)
    (hdeclared : c.declared = (Program.read up).HasField)
    (huse : (Program.read up).outline.names[k]? = some (c.role, name))
    (hpredeclared : c.fresh ∉ NameTable.predeclared)
    (hgaps : (Program.read up).outline.gaps = 0)
    (hclean : (Check.program (Program.read up) (Pass.start up)).2.errors c.strictLiterals = []) :
    ∃ d, (Check.program (Program.read up') (Pass.start up')).2.errors c.strictLiterals = [d] ∧
      c.Complaint d.message ∧ c.spelling c.mark = name := by
  obtain ⟨q, hread, hread', hnames⟩ := h.exists_tree hc hspelling hmark hgaps
  rw [hread, Program.outline_rename] at huse
  obtain ⟨hk, hname⟩ := Slip.getElem?_mark hnames hmark huse
  obtain ⟨hdue, hhits⟩ := Slip.due_numbered hnames hmark hk
  have hgrows := (inferInstance : Check.Growing (Check.program (Program.read up))).grows
    (Pass.start up)
  have hstart := Slip.relates_start (h.tokens.imp fun _ _ ht => ht.issue)
    (Check.errors_of_grows hgrows hclean) hpredeclared
  have hfields : ∀ cls field, q.HasField cls field →
      c.declared (c.spelling cls) (c.spelling field) := by
    intro cls field hfield
    rw [hdeclared, hread]
    exact hfield.rename c.spelling
  rw [hread] at hclean
  obtain ⟨hend, -⟩ := Check.absorbs_program q 0 hfields hdue _ _ hstart hclean
  rw [hhits, ← hread'] at hend
  obtain ⟨d, hd⟩ := List.length_eq_one_iff.1 hend.count
  exact ⟨d, hd, hend.complaints d (hd ▸ List.mem_singleton_self d), hname⟩

/-- What the pass says of the mistake depends on what the name is there for. -/
theorem Misspelt.errors_of_use {up up' : Upcoming} {strict : Bool} {k : Nat} {role : Role}
    {name : String} {fresh : Identifier} (h : Misspelt k fresh.text up.tokens up'.tokens)
    (hc : Closed up.tokens) (huse : (Program.read up).outline.names[k]? = some (role, name))
    (hrole : role ≠ .declared) (hfresh : fresh.text ∉ identifiers up.tokens)
    (hpredeclared : fresh.text ∉ NameTable.predeclared)
    (hgaps : (Program.read up).outline.gaps = 0)
    (hclean : (Check.program (Program.read up) (Pass.start up)).2.errors strict = []) :
    ∃ d, (Check.program (Program.read up') (Pass.start up')).2.errors strict = [d] ∧
      (role = .used → d.message = .name (.notDeclared fresh.text)) ∧
      (role = .selected → ∃ cls, (Program.read up).HasField cls name ∧
        d.message = .name (.notAField fresh.text cls)) := by
  have hint : fresh.text ≠ "int" := fun heq => hpredeclared (heq ▸ List.mem_cons_self ..)
  let c : Slip :=
    { strictLiterals := strict
      spelling := spelt (identifiers up.tokens)
      mark := numeral k
      fresh := fresh.text
      role
      declared := (Program.read up).HasField
      spelling_ne := spelt_ne hint hfresh
      role_ne := hrole }
  obtain ⟨d, hd, hcomplaint, hname⟩ := Misspelt.errors (c := c) h hc rfl rfl rfl huse hpredeclared
    hgaps hclean
  refine ⟨d, hd, ?_, ?_⟩
  · rintro rfl
    exact hcomplaint
  · rintro rfl
    obtain ⟨cls, hfield, hmessage⟩ := hcomplaint
    exact ⟨cls, hname ▸ hfield, hmessage⟩

/-- Replace one name that is used in a text without errors by an identifier that means nothing
there: the compilation reports this one mistake and nothing else, even at the distance zero, where
nothing is held back. A field is missed in a class that has the field that was meant. -/
theorem compile_misspelt {source source' : String} {strict : Bool} {distance k : Nat} {role : Role}
    {name : String} (fresh : Identifier)
    (hclean : (compile source ⟨strict, distance⟩).errors = [])
    (huse : (Program.ofString source).outline.names[k]? = some (role, name))
    (hrole : role ≠ .declared)
    (hfresh : fresh.text ∉ identifiers (TokenList.ofString source).all)
    (hpredeclared : fresh.text ∉ NameTable.predeclared)
    (h : Misspelt k fresh.text (TokenList.ofString source).all (TokenList.ofString source').all) :
    ∃ d, (compile source' ⟨strict, 0⟩).errors = [d] ∧
      (role = .used → d.message = .name (.notDeclared fresh.text) ∧
        d.message.text = fresh.text ++ " not declared") ∧
      (role = .selected → ∃ cls, (Program.ofString source).HasField cls name ∧
        d.message = .name (.notAField fresh.text cls) ∧
        d.message.text = fresh.text ++ " is not a field of " ++ cls) := by
  obtain ⟨hover, hgaps⟩ := over_of_compile hclean
  have hc := Upcoming.closed_ofString source
  rw [← Upcoming.tokens_ofTokens] at hfresh h
  rw [← Upcoming.tokens_ofTokens] at h
  have hpass := h.errors_of_use hc huse hrole hfresh hpredeclared hgaps hover
  obtain ⟨d, hd, hused, hselected⟩ := hpass
  have herrors : (compile source' ⟨strict, 0⟩).errors = [d] := by
    rcases errors_compile source' strict with heq | ⟨-, hnone⟩
    · exact heq.trans hd
    · exact absurd (hnone.symm.trans hd) (by simp)
  refine ⟨d, herrors, fun h => ⟨hused h, ?_⟩, fun h => ?_⟩
  · rw [hused h]
    rfl
  · obtain ⟨cls, hfield, hmessage⟩ := hselected h
    refine ⟨cls, hfield, hmessage, ?_⟩
    rw [hmessage]
    rfl

/-- The type of a variable is misspelt, which says nothing about its field; then the field is. -/
theorem compile_misspelt_class :
    let text := "program P class C\x7bint x;\x7d\x7bvoid main()C c;\x7bc.x=1;\x7d\x7d"
    let text' := "program P class C\x7bint x;\x7d\x7bvoid main()D c;\x7bc.x=1;\x7d\x7d"
    let text'' := "program P class C\x7bint x;\x7d\x7bvoid main()C c;\x7bc.y=1;\x7d\x7d"
    (compile text {}).errors = [] ∧
      (∃ d, (compile text' ⟨false, 0⟩).errors = [d] ∧ d.message = .name (.notDeclared "D")) ∧
      ∃ d, (compile text'' ⟨false, 0⟩).errors = [d] ∧
        ∃ cls, (Program.ofString text).HasField cls "x" ∧
          d.message = .name (.notAField "y" cls) := by
  have hclean : (compile
      "program P class C\x7bint x;\x7d\x7bvoid main()C c;\x7bc.x=1;\x7d\x7d"
      {}).errors = [] := by
    decide +kernel
  have htype : Misspelt 5 "D" (TokenList.ofString
      "program P class C\x7bint x;\x7d\x7bvoid main()C c;\x7bc.x=1;\x7d\x7d").all
      (TokenList.ofString
        "program P class C\x7bint x;\x7d\x7bvoid main()D c;\x7bc.x=1;\x7d\x7d").all :=
    ⟨by decide +kernel, by decide +kernel⟩
  have hfield : Misspelt 8 "y" (TokenList.ofString
      "program P class C\x7bint x;\x7d\x7bvoid main()C c;\x7bc.x=1;\x7d\x7d").all
      (TokenList.ofString
        "program P class C\x7bint x;\x7d\x7bvoid main()C c;\x7bc.y=1;\x7d\x7d").all :=
    ⟨by decide +kernel, by decide +kernel⟩
  have huses : (Program.ofString
      "program P class C\x7bint x;\x7d\x7bvoid main()C c;\x7bc.x=1;\x7d\x7d").outline.names =
        [(.declared, "P"), (.declared, "C"), (.used, "int"), (.declared, "x"), (.declared, "main"),
          (.used, "C"), (.declared, "c"), (.used, "c"), (.selected, "x")] := by
    decide +kernel
  have huse := congrArg (·[5]?) huses
  have hselect := congrArg (·[8]?) huses
  refine ⟨hclean, ?_, ?_⟩
  · obtain ⟨d, hd, hused, -⟩ := compile_misspelt ⟨"D", by decide⟩ hclean huse (by decide)
      (by decide +kernel) (by decide) htype
    exact ⟨d, hd, (hused rfl).1⟩
  · obtain ⟨d, hd, -, hselected⟩ := compile_misspelt ⟨"y", by decide⟩ hclean hselect (by decide)
      (by decide +kernel) (by decide) hfield
    obtain ⟨cls, hclass, hmessage, -⟩ := hselected rfl
    exact ⟨d, hd, cls, hclass, hmessage⟩

end MicroJava
