import Classwright.Proofs.Emit.Depth

/-!
# The counted stack is reached

Control that enters emitted code goes through all of it and finds, at some instruction, as many
values on the stack as are counted for the tree (`ExpressionCode.peak`, `StatementsCode.peaks`).
-/

namespace Classwright

open Code

section Steps

variable {f : ClassFile} {whole pre post : Code} {i : Instruction} {n : Int}

theorem Code.Reaches.next {taken left : Nat} {target : Int} (hcode : whole = pre ++ i :: post)
    (h : Reaches f whole pre.size n) (he : i.effect? f = some (taken, left))
    (ht : target ∈ i.successors pre.size) : Reaches f whole target (n - taken + left) :=
  .step h (mem_locate.2 ⟨pre, post, hcode, (Nat.zero_add _).symm⟩) he ht

/-- Control goes on behind an instruction that neither branches nor returns. -/
theorem Code.Reaches.straight {taken left : Nat} (hcode : whole = pre ++ i :: post)
    (h : Reaches f whole pre.size n) (hs : ∀ pc, i.successors pc = [(pc : Int) + i.size])
    (he : i.effect? f = some (taken, left)) :
    Reaches f whole (pre ++ [i]).size (n - taken + left) := by
  refine h.next hcode he ?_
  rw [hs, List.mem_singleton]
  simp

theorem Code.Reaches.push (hcode : whole = pre ++ i :: post) (h : Reaches f whole pre.size n)
    (hs : ∀ pc, i.successors pc = [(pc : Int) + i.size]) (he : i.effect? f = some (0, 1)) :
    Reaches f whole (pre ++ [i]).size (n + 1) := by
  have hnext := h.straight hcode hs he
  exact (by omega : n - (0 : Nat) + (1 : Nat) = n + 1) ▸ hnext

theorem Code.Reaches.take (hcode : whole = pre ++ i :: post) (h : Reaches f whole pre.size (n + 1))
    (hs : ∀ pc, i.successors pc = [(pc : Int) + i.size]) (he : i.effect? f = some (1, 0)) :
    Reaches f whole (pre ++ [i]).size n := by
  have hnext := h.straight hcode hs he
  exact (by omega : n + 1 - (1 : Nat) + (0 : Nat) = n) ▸ hnext

/-- Both ways of a conditional branch. -/
theorem Code.Reaches.test (hop : i.op.isTest = true) (hwide : i.wide = false)
    (hcode : whole = pre ++ i :: post) (h : Reaches f whole pre.size (n + 2)) :
    Reaches f whole (pre ++ [i]).size n ∧ Reaches f whole (pre.size + i.operand) n := by
  obtain ⟨op, operand, wide⟩ := i
  obtain rfl : wide = false := hwide
  have he : Instruction.effect? f ⟨op, operand, false⟩ = some (2, 0) := by
    cases op <;> first | rfl | simp [Opcode.isTest] at hop
  have hs : Instruction.successors ⟨op, operand, false⟩ pre.size =
      [(pre.size : Int) + (Instruction.mk op operand false).size, pre.size + operand] := by
    rw [Instruction.size_test hop, Instruction.successors_test hop]
    rfl
  have hn : n + 2 - (2 : Nat) + (0 : Nat) = n := by omega
  have hmem : ((pre ++ [Instruction.mk op operand false]).size : Int) ∈
      Instruction.successors ⟨op, operand, false⟩ pre.size := by
    rw [hs]
    simp
  have hmem' : (pre.size : Int) + operand ∈
      Instruction.successors ⟨op, operand, false⟩ pre.size := by
    rw [hs]
    simp
  have hnext := h.next hcode he hmem
  have hbranch := h.next hcode he hmem'
  rw [hn] at hnext hbranch
  exact ⟨hnext, hbranch⟩

theorem Code.Reaches.jump {operand : Int} (hcode : whole = pre ++ ⟨.goto, operand, false⟩ :: post)
    (h : Reaches f whole pre.size n) : Reaches f whole (pre.size + operand) n := by
  have hmem : (pre.size : Int) + operand ∈
      Instruction.successors ⟨.goto, operand, false⟩ pre.size := List.mem_singleton.2 rfl
  have hnext := h.next hcode rfl hmem
  exact (by omega : n - (0 : Nat) + (0 : Nat) = n) ▸ hnext

end Steps

section Trees

variable {c : EmitContext} {f : ClassFile} {whole : Code}

theorem exists_reaches_max {a b : Nat} (ha : ∃ pc, Reaches f whole pc a)
    (hb : ∃ pc, Reaches f whole pc b) : ∃ pc, Reaches f whole pc (max a b : Nat) := by
  rcases Nat.le_total a b with h | h
  · rwa [Nat.max_eq_right h]
  · rwa [Nat.max_eq_left h]

theorem reaches_operatorCode? {op : Operator} {code : Code} (h : operatorCode? op = some code)
    {pre post : Code} (hcode : whole = pre ++ (code ++ post)) {n : Int}
    (hn : Reaches f whole pre.size (n + 2)) : Reaches f whole (pre ++ code).size (n + 1) := by
  have harith (i : Instruction) (hcode : whole = pre ++ ([i] ++ post))
      (hs : ∀ pc : Nat, i.successors pc = [(pc : Int) + i.size])
      (he : i.effect? f = some (2, 1)) : Reaches f whole (pre ++ [i]).size (n + 1) := by
    have hnext := hn.straight hcode hs he
    exact (by omega : n + 2 - (2 : Nat) + (1 : Nat) = n + 1) ▸ hnext
  have hcompare (op : Opcode) (hop : op.isTest = true)
      (hcode : whole = pre ++ (comparisonCode op ++ post)) :
      Reaches f whole (pre ++ comparisonCode op).size (n + 1) := by
    obtain ⟨hzero, -⟩ := Reaches.test hop rfl hcode hn
    have hpush : whole = (pre ++ [⟨op, 7, false⟩]) ++ ⟨.iconst0, 0, false⟩ ::
        (⟨.goto, 4, false⟩ :: ⟨.iconst1, 0, false⟩ :: post) := by
      simp [hcode, comparisonCode]
    have hone := hzero.push hpush (fun _ => rfl) rfl
    have hjump : whole = (pre ++ [⟨op, 7, false⟩] ++ [⟨.iconst0, 0, false⟩]) ++
        ⟨.goto, 4, false⟩ :: (⟨.iconst1, 0, false⟩ :: post) := by
      simp [hcode, comparisonCode]
    have hend := hone.jump hjump
    convert hend using 1
    simp [comparisonCode, Instruction.size, Opcode.size, Opcode.operand, OperandKind.size]
    omega
  cases op <;> simp only [operatorCode?, Option.some.injEq, reduceCtorEq] at h <;> subst h
  all_goals first
    | exact hcompare _ rfl hcode
    | exact harith _ hcode (fun _ => rfl) rfl

mutual

/-- Control goes through the code of an expression and reaches the depth counted for it. -/
theorem ExpressionCode.peak (hc : c.CallsKnown f) {e : Node} {code : Code}
    (h : ExpressionCode c e code) {pre post : Code} (hcode : whole = pre ++ (code ++ post)) {n : Int}
    (hn : Reaches f whole pre.size n) :
    Reaches f whole (pre ++ code).size (n + if c.program.yieldsValue e then 1 else 0) ∧
      ∃ pc, Reaches f whole pc (n + c.program.exprStack e) := by
  cases h with
  | literal hi | constant _ _ hi =>
    obtain ⟨hs, he⟩ := c.flow_of_push (f := f) hi
    have hpush := hn.push hcode hs he
    exact ⟨hpush, _, hpush⟩
  | slot =>
    have hpush := hn.push hcode (successors_loadSlot _) (effect?_loadSlot _)
    exact ⟨hpush, _, hpush⟩
  | field =>
    have hpush := hn.push hcode (fun _ => rfl) rfl
    exact ⟨hpush, _, hpush⟩
  | @call callee arguments id d place argCode index hd hk hlen hr ha =>
    have hargCode : whole = pre ++ (argCode ++ ⟨.invokeStatic, index.toNat, false⟩ :: post) := by
      rw [hcode, List.append_assoc]
      rfl
    -- the arguments are pushed, and the call takes them away
    have hbelow : Reaches f whole pre.size (n + (0 : Nat)) := by
      rw [Int.natCast_zero, Int.add_zero]
      exact hn
    obtain ⟨hargs, hpeak⟩ := ha.peak hc hargCode hbelow
    have hcallCode : whole = (pre ++ argCode) ++ ⟨.invokeStatic, index.toNat, false⟩ :: post := by
      rw [hcode]
      simp
    have hcall := hargs.straight hcallCode (fun _ => rfl) (hc id d _ hd hk hr)
    have hvalue : c.program.returnsValue (some id) = true ↔ d.type = .int := by
      simp [Program.returnsValue, hd]
    have hend : Reaches f whole
        (pre ++ (argCode ++ [Instruction.mk .invokeStatic index.toNat false])).size
        (n + if c.program.returnsValue (some id) then 1 else 0) := by
      rw [← List.append_assoc]
      have hdepth : n + (0 : Nat) + (arguments.length : Int) - (d.arity : Nat) +
          ((if d.type = .int then 1 else 0 : Nat) : Int) =
          n + if c.program.returnsValue (some id) then 1 else 0 := by
        simp only [hvalue, hlen]
        split <;> omega
      exact hdepth ▸ hcall
    refine ⟨hend, ?_⟩
    rw [Program.exprStack]
    -- the peak is the value, or that of the arguments, if there are any
    rcases Nat.le_total (c.program.argumentStack 0 arguments)
      (if c.program.returnsValue (some id) then 1 else 0) with hle | hle
    · rw [Nat.max_eq_right hle]
      have hcast : ((if c.program.returnsValue (some id) then 1 else 0 : Nat) : Int) =
          if c.program.returnsValue (some id) then 1 else 0 := by
        split <;> rfl
      rw [hcast]
      exact ⟨_, hend⟩
    · rw [Nat.max_eq_left hle]
      cases harguments : arguments with
      | nil =>
        have hzero : n + ((c.program.argumentStack 0 [] : Nat) : Int) = n := by
          simp [Program.argumentStack]
        exact ⟨_, hzero ▸ hn⟩
      | cons e es =>
        exact harguments ▸ hpeak (by simp [harguments])
  | @binary op left right place leftCode rightCode opCode hop hl hvl hr hvr =>
    -- the right operand is computed above the left one
    have hleftCode : whole = pre ++ (leftCode ++ (rightCode ++ opCode ++ post)) := by
      rw [hcode]
      simp
    obtain ⟨hleft, peak, hpeak⟩ := hl.peak hc hleftCode hn
    rw [if_pos hvl] at hleft
    have hrightCode : whole = pre ++ leftCode ++ (rightCode ++ (opCode ++ post)) := by
      rw [hcode]
      simp
    obtain ⟨hright, peak', hpeak'⟩ := hr.peak hc hrightCode hleft
    rw [if_pos hvr, Int.add_assoc] at hright
    have hopCode : whole = pre ++ leftCode ++ rightCode ++ (opCode ++ post) := by
      rw [hcode]
      simp
    have hend := reaches_operatorCode? hop hopCode hright
    refine ⟨by simpa [Program.yieldsValue] using hend, ?_⟩
    rw [Program.exprStack]
    rcases Nat.le_total (c.program.exprStack left) (1 + c.program.exprStack right) with hle | hle
    · rw [Nat.max_eq_right hle]
      exact ⟨peak', (by omega : n + 1 + (c.program.exprStack right : Int) =
        n + ((1 + c.program.exprStack right : Nat) : Int)) ▸ hpeak'⟩
    · rw [Nat.max_eq_left hle]
      exact ⟨peak, hpeak⟩

/-- Likewise for arguments, on top of `below` earlier ones. -/
theorem ArgumentsCode.peak (hc : c.CallsKnown f) {es : List Node} {code : Code}
    (h : ArgumentsCode c es code) {pre post : Code} (hcode : whole = pre ++ (code ++ post)) {n : Int}
    {below : Nat} (hn : Reaches f whole pre.size (n + below)) :
    Reaches f whole (pre ++ code).size (n + below + es.length) ∧
      (es ≠ [] → ∃ pc, Reaches f whole pc (n + c.program.argumentStack below es)) := by
  cases h with
  | nil => exact ⟨by simpa using hn, fun h => absurd rfl h⟩
  | @cons e rest code others he hv hr =>
    have hfirstCode : whole = pre ++ (code ++ (others ++ post)) := by
      rw [hcode]
      simp
    obtain ⟨hfirst, peak, hpeak⟩ := he.peak hc hfirstCode hn
    rw [if_pos hv] at hfirst
    have hrestCode : whole = pre ++ code ++ (others ++ post) := by
      rw [hcode]
      simp
    -- the first argument stays on the stack below the others
    have hbelow : Reaches f whole (pre ++ code).size (n + ((below + 1 : Nat) : Int)) :=
      (by omega : n + below + 1 = n + ((below + 1 : Nat) : Int)) ▸ hfirst
    obtain ⟨hrest, hpeaks⟩ := hr.peak hc hrestCode hbelow
    refine ⟨?_, fun _ => ?_⟩
    · rw [← List.append_assoc]
      exact (by rw [List.length_cons]; omega : n + ((below + 1 : Nat) : Int) + (rest.length : Int) =
        n + below + ((e :: rest).length : Int)) ▸ hrest
    · rw [Program.argumentStack]
      -- the peak is reached in the first argument or behind it
      rcases Nat.le_total (below + c.program.exprStack e) (c.program.argumentStack (below + 1) rest)
        with hle | hle
      · rw [Nat.max_eq_right hle]
        refine hpeaks ?_
        rintro rfl
        have hpos := Program.exprStack_pos hv
        rw [Program.argumentStack] at hle
        omega
      · rw [Nat.max_eq_left hle]
        exact ⟨peak, (by omega : n + below + (c.program.exprStack e : Int) =
          n + ((below + c.program.exprStack e : Nat) : Int)) ▸ hpeak⟩

end

/-- An instruction behind an expression takes its value. -/
theorem ExpressionCode.peak_take (hc : c.CallsKnown f) {e : Node} {code : Code}
    (h : ExpressionCode c e code) (hv : c.program.yieldsValue e = true) {pre post : Code}
    {i : Instruction} (hcode : whole = pre ++ (code ++ [i] ++ post)) (hn : Reaches f whole pre.size 0)
    (hs : ∀ pc, i.successors pc = [(pc : Int) + i.size]) (he : i.effect? f = some (1, 0)) :
    Reaches f whole (pre ++ (code ++ [i])).size 0 ∧
      ∃ pc, Reaches f whole pc (c.program.exprStack e) := by
  have hvalueCode : whole = pre ++ (code ++ i :: post) := by
    rw [hcode]
    simp
  obtain ⟨hvalue, peak, hpeak⟩ := h.peak hc hvalueCode hn
  rw [if_pos hv] at hvalue
  rw [Int.zero_add] at hpeak
  have htakeCode : whole = pre ++ code ++ i :: post := by
    rw [hcode]
    simp
  have hend := hvalue.take htakeCode hs he
  rw [← List.append_assoc]
  exact ⟨hend, peak, hpeak⟩

/-- Control goes through a condition that is compared with a number pushed before it. -/
theorem ExpressionCode.peak_test (hc : c.CallsKnown f) {e : Node} {code : Code}
    (h : ExpressionCode c e code) (hv : c.program.yieldsValue e = true) {pre post : Code}
    {i : Instruction} (hs : ∀ pc, i.successors pc = [(pc : Int) + i.size])
    (he : i.effect? f = some (0, 1)) {distance : Int}
    (hcode : whole = pre ++ i :: (code ++ ⟨.ifEq, distance, false⟩ :: post))
    (hn : Reaches f whole pre.size 0) :
    Reaches f whole (pre ++ i :: (code ++ [⟨.ifEq, distance, false⟩])).size 0 ∧
      Reaches f whole ((pre ++ i :: code).size + distance) 0 ∧
      ∃ pc, Reaches f whole pc (1 + c.program.exprStack e : Nat) := by
  have hpush := hn.push hcode hs he
  have hvalueCode : whole = pre ++ [i] ++ (code ++ ⟨.ifEq, distance, false⟩ :: post) := by
    rw [hcode]
    simp
  obtain ⟨hvalue, peak, hpeak⟩ := h.peak hc hvalueCode hpush
  rw [if_pos hv, Int.add_assoc] at hvalue
  have htestCode : whole = pre ++ [i] ++ code ++ ⟨.ifEq, distance, false⟩ :: post := by
    rw [hcode]
    simp
  obtain ⟨hnext, hbranch⟩ := Reaches.test rfl rfl htestCode hvalue
  refine ⟨by simpa using hnext, by simpa using hbranch, peak, ?_⟩
  rw [Int.natCast_add]
  simpa using hpeak

/-- Wherever the code stands, with nothing on the stack, there is nothing on it behind the code if
it completes, and somewhere there are `peak` numbers on it. -/
def Peaks (f : ClassFile) (completes : Bool) (peak : Nat) (code : Code) : Prop :=
  ∀ ⦃whole pre post : Code⦄, whole = pre ++ (code ++ post) → Reaches f whole pre.size 0 →
    (completes = true → Reaches f whole (pre ++ code).size 0) ∧ ∃ pc, Reaches f whole pc peak

/-- Both parts behind a test are reached: the else code comes first, and behind it the jump over the
then code. -/
theorem ExpressionCode.peaks_select (hc : c.CallsKnown f) {e : Node} {condCode : Code}
    (h : ExpressionCode c e condCode) (hv : c.program.yieldsValue e = true)
    {thenCode elseCode : Code} {thenCompletes elseCompletes : Bool} {thenPeak elsePeak : Nat}
    (ht : Peaks f thenCompletes thenPeak thenCode) (he : Peaks f elseCompletes elsePeak elseCode) :
    Peaks f (thenCompletes || elseCompletes)
      (max (1 + c.program.exprStack e) (max thenPeak elsePeak))
      (selectCode condCode (elseCode ++ joinCode elseCompletes thenCode) thenCode) := by
  intro whole pre post hcode hn
  obtain ⟨join, hjoin⟩ : ∃ join, join = joinCode elseCompletes thenCode := ⟨_, rfl⟩
  obtain ⟨skip, hskip⟩ : ∃ skip : Instruction,
      skip = ⟨.ifEq, ((elseCode ++ join).size + 3 : Nat), false⟩ := ⟨_, rfl⟩
  have hwhole : whole = pre ++ { op := .iconst1 } :: (condCode ++ skip ::
      (elseCode ++ (join ++ (thenCode ++ post)))) := by
    rw [hcode, hskip, hjoin]
    simp [selectCode]
  rw [hskip] at hwhole
  obtain ⟨helse, hthen, peak, hpeak⟩ := h.peak_test hc hv (fun _ => rfl) rfl hwhole hn
  rw [← hskip] at hwhole helse
  have hskipSize : skip.size = 3 := by rw [hskip]; rfl
  -- a test that fails goes on with the else code
  have helseCode : whole = (pre ++ { op := .iconst1 } :: (condCode ++ [skip])) ++
      (elseCode ++ (join ++ (thenCode ++ post))) := by
    rw [hwhole]
    simp
  obtain ⟨helseEnd, hpeakElse⟩ := he helseCode helse
  -- the branch goes to the then code
  have hthenCode : whole = (pre ++ { op := .iconst1 } :: (condCode ++ skip ::
      (elseCode ++ join))) ++ (thenCode ++ post) := by
    rw [hwhole]
    simp
  have hthenStart : Reaches f whole (pre ++ { op := .iconst1 } :: (condCode ++ skip ::
      (elseCode ++ join))).size 0 := by
    convert hthen using 1
    simp [hskipSize]
    omega
  obtain ⟨hthenEnd, hpeakThen⟩ := ht hthenCode hthenStart
  refine ⟨fun hcompletes => ?_,
    exists_reaches_max ⟨peak, hpeak⟩ (exists_reaches_max hpeakThen hpeakElse)⟩
  -- the end is reached from the then code or by the jump over it
  rcases Bool.or_eq_true_iff.1 hcompletes with hthens | helses
  · convert hthenEnd hthens using 2
    simp [selectCode, hskip, hjoin]
  · rw [helses, joinCode, if_pos rfl] at hjoin
    subst hjoin
    have hjumpCode : whole = (pre ++ { op := .iconst1 } :: (condCode ++ [skip]) ++ elseCode) ++
        ⟨.goto, (thenCode.size + 3 : Nat), false⟩ :: (thenCode ++ post) := by
      rw [hwhole]
      simp
    have hjump := (helseEnd helses).jump hjumpCode
    convert hjump using 1
    simp [selectCode, joinCode, helses, hskip, Instruction.size, Opcode.size, Opcode.operand,
      OperandKind.size]
    omega

/-- The end of a loop is reached from its test. -/
theorem ExpressionCode.peaks_repeat (hc : c.CallsKnown f) {e : Node} {condCode : Code}
    (h : ExpressionCode c e condCode) (hv : c.program.yieldsValue e = true) {bodyCode : Code}
    {bodyCompletes : Bool} {bodyPeak : Nat} (hb : Peaks f bodyCompletes bodyPeak bodyCode) :
    Peaks f true (max (1 + c.program.exprStack e) bodyPeak) (repeatCode condCode bodyCode) := by
  intro whole pre post hcode hn
  obtain ⟨again, hagain⟩ : ∃ again : Instruction,
      again = ⟨.goto, -(bodyCode.size + 3 + condCode.size + 1 : Nat), false⟩ := ⟨_, rfl⟩
  have hwhole : whole = pre ++ { op := .iconst0 } :: (condCode ++
      ⟨.ifEq, (bodyCode.size + 6 : Nat), false⟩ :: (bodyCode ++ again :: post)) := by
    rw [hcode, hagain]
    simp [repeatCode]
  obtain ⟨hbody, hend, peak, hpeak⟩ := h.peak_test hc hv (fun _ => rfl) rfl hwhole hn
  have hbodyCode : whole = (pre ++ { op := .iconst0 } :: (condCode ++
      [⟨.ifEq, (bodyCode.size + 6 : Nat), false⟩])) ++ (bodyCode ++ again :: post) := by
    rw [hwhole]
    simp
  obtain ⟨-, hpeakBody⟩ := hb hbodyCode hbody
  refine ⟨fun _ => ?_, exists_reaches_max ⟨peak, hpeak⟩ hpeakBody⟩
  convert hend using 1
  simp [repeatCode, Instruction.size, Opcode.size, Opcode.operand, OperandKind.size]
  omega

mutual

/-- Control goes through the code of a statement and reaches the depth counted for it. -/
theorem StatementCode.peaks (hc : c.CallsKnown f) {d : Declaration} {s : Node} {code : Code}
    (h : StatementCode c d s code) : Peaks f s.completes (c.program.stmtStack s) code := by
  intro whole pre post hcode hn
  cases h with
  | assignSlot _ _ _ _ he hv =>
    obtain ⟨hend, hpeak⟩ := he.peak_take hc hv hcode hn (successors_storeSlot _)
      (effect?_storeSlot _)
    exact ⟨fun _ => hend, hpeak⟩
  | assignField _ _ _ _ he hv =>
    obtain ⟨hend, hpeak⟩ := he.peak_take hc hv hcode hn (fun _ => rfl) rfl
    exact ⟨fun _ => hend, hpeak⟩
  | @call callee arguments link place callCode he =>
    -- an answer that nobody uses is taken off again
    cases hv : c.program.returnsValue link with
    | true =>
      rw [hv, if_pos rfl] at hcode
      rw [if_pos rfl]
      obtain ⟨hend, hpeak⟩ := he.peak_take hc hv hcode hn (fun _ => rfl) rfl
      exact ⟨fun _ => hend, hpeak⟩
    | false =>
      rw [hv, if_neg (by simp), List.append_nil] at hcode
      rw [if_neg (by simp), List.append_nil]
      obtain ⟨hend, peak, hpeak⟩ := he.peak hc hcode hn
      rw [Int.zero_add] at hpeak
      refine ⟨fun _ => ?_, peak, hpeak⟩
      simpa [Program.yieldsValue, hv] using hend
  | leave => exact ⟨by simp [Node.completes], _, hn⟩
  | answer _ he =>
    obtain ⟨-, peak, hpeak⟩ := he.peak hc (hcode.trans (by rw [List.append_assoc])) hn
    exact ⟨by simp [Node.completes], peak, by rwa [Int.zero_add] at hpeak⟩
  | branch hcond hv ht he =>
    have hselect := hcond.peaks_select hc hv (ht.peaks hc) (he.peaks hc)
    simp only [Node.completes, Program.stmtStack]
    exact hselect hcode hn
  | loop hcond hv hb =>
    have hrepeat := hcond.peaks_repeat hc hv (hb.peaks hc)
    simp only [Program.stmtStack]
    exact hrepeat hcode hn

/-- Likewise for several statements. -/
theorem StatementsCode.peaks (hc : c.CallsKnown f) {d : Declaration} {ss : List Node} {code : Code}
    (h : StatementsCode c d ss code) :
    Peaks f (Node.allComplete ss) (c.program.stmtsStack ss) code := by
  intro whole pre post hcode hn
  cases h with
  | nil => exact ⟨fun _ => by simpa using hn, _, hn⟩
  | @cons s rest code others hs hreach hr =>
    have hfirstCode : whole = pre ++ (code ++ (others ++ post)) := by
      rw [hcode]
      simp
    obtain ⟨hfirst, peak, hpeak⟩ := hs.peaks hc hfirstCode hn
    rw [Program.stmtsStack]
    -- a statement that does not complete is the last one
    rcases hreach with hcompletes | rfl
    · have hrestCode : whole = pre ++ code ++ (others ++ post) := by
        rw [hcode]
        simp
      obtain ⟨hrest, peak', hpeak'⟩ := hr.peaks hc hrestCode (hfirst hcompletes)
      refine ⟨fun hall => ?_, ?_⟩
      · rw [Node.allComplete, Bool.and_eq_true] at hall
        rw [← List.append_assoc]
        exact hrest hall.2
      · exact exists_reaches_max ⟨peak, hpeak⟩ ⟨peak', hpeak'⟩
    · cases hr with
      | nil =>
        refine ⟨fun hall => ?_, peak, ?_⟩
        · rw [Node.allComplete, Bool.and_eq_true] at hall
          rw [List.append_nil]
          exact hfirst hall.1
        · rw [Program.stmtsStack, Nat.max_zero]
          exact hpeak

end

end Trees

end Classwright
