import MicroJava.Proofs.Resolved.StatementCode

/-! # Programs on the machine

A call opens a frame for the method, runs its body and leaves the caller's frame as it was. -/

namespace MicroJava.Resolved

open Exec (execute)

/-! ## Where methods are -/

theorem methodsCode_eq (layout : Layout) (start : Nat) (ms : List Method) {i : Nat} {m : Method}
    (h : ms[i]? = some m) : ∃ after, methodsCode layout start ms =
      methodsCode layout start (ms.take i) ++
        (m.code layout (start + ((ms.take i).map Method.size).sum) ++ after) := by
  induction ms generalizing start i with
  | nil => cases h
  | cons m' rest ih =>
      cases i with
      | zero =>
          cases h
          exact ⟨methodsCode layout (start + m.size) rest, by simp [methodsCode]⟩
      | succ i =>
          obtain ⟨after, hcode⟩ := ih (start + m'.size) h
          exact ⟨after, by simp [methodsCode, hcode, Nat.add_assoc]⟩

theorem Program.codeAt_method {P : Program} {i : Nat} {m : Method} (h : P.methods[i]? = some m) :
    CodeAt P.object (P.entry i) (m.code P.layout (P.entry i)) := by
  obtain ⟨after, hcode⟩ := methodsCode_eq P.layout 0 P.methods h
  have hall : CodeAt P.object 0 P.code := ⟨[], [], by simp [Program.object], rfl⟩
  rw [Program.code, hcode] at hall
  simp only [Nat.zero_add] at hall
  exact (hall.inside (by simp [Program.entry])).left

/-! ## Entering and leaving -/

section Frames

variable {object : ObjectFile} {pc : Nat} {is : List Instruction} {s : Surroundings}

theorem enter_machine (pc : Nat) (w : World) (stack args : Array Int32)
    (frames : List (Array Int32)) (calls : Array Nat) (locals : Nat) :
    Exec.enter args.size (args.size + locals) pc (w.machine (stack ++ args) frames calls) =
      .ok () (w.machine stack ((args ++ Array.replicate locals 0) :: frames) calls) := by
  have hle : args.size ≤ (w.machine (stack ++ args) frames calls).stack.size := by
    simp [World.machine]
  have hbase : (stack ++ args).size - args.size = stack.size := by simp
  have htake : (stack ++ args).shrink stack.size = stack := by simp
  have hdrop : (stack ++ args).extract stack.size (stack ++ args).size = args := by simp
  rw [Exec.enter, if_pos hle]
  simp only [World.machine, hbase, htake, hdrop, Nat.add_sub_cancel_left]

theorem enter_path {m : Method} (hs : s.Even) (hm : m.frame.length ≤ maxFrame) {args : List Value}
    (ha : args.length = m.params.length)
    (hc : CodeAt object pc (.enter (slotOf m.params.length) (slotOf m.frame.length) :: is))
    (w : World) :
    Path object 1 ⟨pc, w.machine (s.pushAll args).stack s.outer s.calls⟩
      ⟨pc + entrySize, { w with frame := m.fresh args }.active s⟩ := by
  have hbal : (w.machine (s.pushAll args).stack s.outer s.calls).Balanced := .inl hs
  refine .single hbal ((hc.advance_eq rfl).trans ?_)
  have hlen : m.frame.length = m.params.length + m.locals.length := by simp [Method.frame]
  have hparams : m.params.length ≤ maxFrame := by omega
  have hframe : (m.fresh args).map Value.rep =
      (args.map Value.rep).toArray ++ Array.replicate m.locals.length 0 := by
    simp [Method.fresh, Function.comp_def, List.map_const']
  have hsize : (args.map Value.rep).toArray.size = m.params.length := by simpa using ha
  have henter := enter_machine pc w s.stack (args.map Value.rep).toArray s.outer s.calls
    m.locals.length
  rw [hsize, ← hlen, ← s.stack_pushAll, ← hframe] at henter
  simp only [execute]
  rw [toNat_slotOf hparams, toNat_slotOf hm, Nat.max_eq_left (by omega), bind_ok henter]
  rfl

theorem exit_path (hs : s.Even) (hc : CodeAt object pc (.exit :: is)) (w : World) :
    Path object 1 ⟨pc, w.active s⟩
      ⟨pc + Instruction.exit.size, w.machine s.stack s.outer s.calls⟩ := by
  refine .single (w.active_balanced hs) ((hc.advance_eq rfl).trans ?_)
  rfl

theorem ret_path (hc : CodeAt object pc (.ret :: is)) (w : World) (stack : Array Int32)
    {frames : List (Array Int32)} {calls : Array Nat} (back : Nat)
    (hf : frames.length = calls.size + 1) :
    Path object 1 ⟨pc, w.machine stack frames (calls.push back)⟩
      ⟨back, w.machine stack frames calls⟩ := by
  refine .single (.inl (by simpa [World.machine] using hf)) ((hc.advance_eq rfl).trans ?_)
  have hback : Exec.back (w.machine stack frames (calls.push back)) =
      .ok (some back) (w.machine stack frames calls) := by
    simp [Exec.back, World.machine]
  simp only [execute]
  rw [bind_ok hback]
  rfl

end Frames

/-! ## Calls -/

section Calls

variable {P : Program} {fuel : Nat} {calls : CallRule}

/-- The machine is about to leave a method with its result on the stack. -/
def Leaves (object : ObjectFile) (s : Surroundings) (r : Option Value) (w : World) (c : Config) :
    Prop :=
  w.Sized ∧ ∃ pc, CodeAt object pc [.exit, .ret] ∧ c = ⟨pc, w.active (s.pushResult r)⟩

theorem Method.size_fresh {m : Method} {args : List Value} (ha : args.length = m.params.length) :
    (m.fresh args).size = m.frame.length := by
  simp [Method.fresh, Method.frame, ha]

/-- What a method does from its entry to its exit. -/
theorem Method.activate_simulated (hl : Linked P P.object fuel calls)
    (ho : P.object.code.size ≤ maxAddress) {i : Nat} {m : Method} (hm : P.methods[i]? = some m)
    (hf : m.frame.length ≤ maxFrame) {args : List Value} (ha : args.length = m.params.length)
    {w : World} {s : Surroundings} (hs : s.Even) (hw : w.Sized) :
    Simulates P.object (fuel + 1)
      ⟨P.entry i, w.machine (s.pushAll args).stack s.outer s.calls⟩ (Leaves P.object s)
      (m.activate P calls fuel args w) := by
  have hc := P.codeAt_method hm
  rw [Method.code] at hc
  have hb := hc.tail
  rw [size_enter] at hb
  have hend := hb.right
  rw [codeSize_stmtsCode] at hend
  have hw' : { w with frame := m.fresh args }.Sized :=
    ⟨by rw [Method.size_fresh ha]; exact hf, hw.globals, hw.records⟩
  have hmodify : (modify fun w => { w with frame := m.fresh args } : Eval Unit) w =
      .ok () { w with frame := m.fresh args } := rfl
  refine Simulates.later (enter_path hs hf ha hc w) ?_
  rw [Method.activate, bind_ok hmodify]
  refine (stmts_simulated hl ho m.body _ _ s hs hw' hb.left).bind ?_
  intro signal w₁ c₁ hends
  cases signal with
  | returned v => exact .of_ok hends
  | proceed =>
      obtain ⟨hw₁, rfl⟩ := hends
      rw [Method.outcome]
      rw [ending] at hend
      split
      · next hv =>
          rw [if_pos hv] at hend
          exact .of_ok ⟨hw₁, _, hend, rfl⟩
      · next hv =>
          rw [if_neg hv] at hend
          refine .failure hend rfl (w₁.active_balanced hs) ?_ (shows_active w₁ s)
          rfl

/-- What a called method leaves alone: also the frame of its caller and the way back. -/
def Surroundings.inside (s : Surroundings) (w : World) (back : Nat) : Surroundings :=
  ⟨s.stack, w.frame.map Value.rep :: s.outer, s.calls.push back⟩

theorem Surroundings.Even.inside {s : Surroundings} (hs : s.Even) (w : World) (back : Nat) :
    (s.inside w back).Even := by
  simpa [Surroundings.inside, Surroundings.Even] using hs

theorem Surroundings.called_eq (s : Surroundings) (w : World) (args : List Value) (back : Nat) :
    s.called w args back = w.machine ((s.inside w back).pushAll args).stack
      (s.inside w back).outer (s.inside w back).calls := by
  simp only [Surroundings.called, Surroundings.inside, Surroundings.stack_pushAll]

/-- From the exit of a called method back to its caller, whose variables are there again. -/
theorem Leaves.return_path {object : ObjectFile} {s : Surroundings} {w w' : World} {back : Nat}
    {r : Option Value} {c : Config} (h : Leaves object (s.inside w back) r w' c) (hs : s.Even)
    (hw : w.Sized) :
    { w' with frame := w.frame }.Sized ∧
      Path object 2 c ⟨back, { w' with frame := w.frame }.active (s.pushResult r)⟩ := by
  obtain ⟨hw', pc, hcode, rfl⟩ := h
  have hs' := hs.inside w back
  refine ⟨⟨hw.frame, hw'.globals, hw'.records⟩, ?_⟩
  have hframes : (w.frame.map Value.rep :: s.outer).length = s.calls.size + 1 :=
    congrArg (· + 1) hs
  have hret := ret_path hcode.tail w' (s.pushResult r).stack back hframes
  cases r with
  | none => exact (exit_path hs' hcode w').trans hret
  | some v => exact (exit_path (hs'.push v) hcode w').trans hret

/-- Calls of a program are carried out by its code. -/
theorem Program.call_simulated (ho : codeSize P.code ≤ maxAddress)
    (hf : ∀ m ∈ P.methods, m.frame.length ≤ maxFrame) (fuel : Nat) :
    CallsSimulated P P.object fuel (P.call fuel) := by
  have hsize : P.object.code.size ≤ maxAddress := by
    rwa [Program.object, List.size_toArray]
  induction fuel with
  | zero => exact fun index args w s back hs hw => ⟨0, _, Nat.le_refl _, .refl _⟩
  | succ fuel ih =>
      intro index args w s back hs hw
      have hl : Linked P P.object fuel (P.call fuel) :=
        ⟨ih, fun method => Nat.le_trans (P.entry_le method) ho⟩
      rw [Program.call]
      cases hm : P.methods[index]? with
      | none => trivial
      | some m =>
          have hsome : (Eval.orStuck (some m) : Eval Method) w = .ok m w := rfl
          have hget : (get : Eval World) w = .ok w w := rfl
          rw [bind_ok hsome]
          split
          · next ha =>
              rw [bind_ok hget]
              rw [s.called_eq]
              -- the caller's frame is one of those around the callee
              refine (Method.activate_simulated hl hsize hm (hf m (List.mem_of_getElem? hm)) ha
                (hs.inside w back) hw).bind ?_
              intro r w' c' hleaves
              obtain ⟨hw', hpath⟩ := hleaves.return_path hs hw
              exact .after hpath (.of_ok ⟨hw', rfl⟩)
          · trivial

end Calls

/-! ## Runs -/

/-- A machine that nothing has been put on yet. -/
def Surroundings.empty : Surroundings := ⟨#[], [], #[]⟩

/-- The machine has carried out the main method up to its exit. -/
def Completes (object : ObjectFile) (r : Option Value) (w : World) (c : Config) : Prop :=
  ∃ frame, Leaves object .empty r { w with frame } c

theorem Program.start_sized {P : Program} (hg : P.globals.length ≤ maxAddress) (input : String) :
    (P.start input).Sized :=
  ⟨Nat.zero_le _, by simpa [Program.start] using hg, by simp [Program.start]⟩

/-- A run of the code from the main method on does what an evaluation of the program does. -/
theorem Program.evaluate_simulated {P : Program} (ho : codeSize P.code ≤ maxAddress)
    (hg : P.globals.length ≤ maxAddress) (hf : ∀ m ∈ P.methods, m.frame.length ≤ maxFrame)
    {i : Nat} {m : Method} (hi : P.main? = some i) (hm : P.methods[i]? = some m)
    (hp : m.params = []) (input : String) (fuel : Nat) :
    Simulates P.object (fuel + 1) ⟨P.entry i, (P.start input).machine #[] [] #[]⟩
      (Completes P.object) (P.evaluate input (fuel + 1)) := by
  have hsize : P.object.code.size ≤ maxAddress := by
    rwa [Program.object, List.size_toArray]
  have hl : Linked P P.object fuel (P.call fuel) :=
    ⟨P.call_simulated ho hf fuel, fun method => Nat.le_trans (P.entry_le method) ho⟩
  have hfound : (Eval.orStuck (some i) : Eval Nat) (P.start input) = .ok i (P.start input) := rfl
  have hsome : (Eval.orStuck (some m) : Eval Method) (P.start input) = .ok m (P.start input) := rfl
  have hget : (get : Eval World) (P.start input) = .ok (P.start input) (P.start input) := rfl
  have ha : ([] : List Value).length = m.params.length := by simp [hp]
  rw [Program.evaluate, hi, bind_ok hfound]
  rw [Program.call, hm, bind_ok hsome, if_pos ha, bind_ok hget]
  have h := Method.activate_simulated hl hsize hm (hf m (List.mem_of_getElem? hm)) ha
    (s := .empty) rfl (Program.start_sized hg input)
  refine h.bind ?_
  intro r w c hleaves
  exact .of_ok ⟨w.frame, hleaves⟩

end MicroJava.Resolved
