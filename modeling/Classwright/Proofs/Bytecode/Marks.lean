import Classwright.Proofs.Bytecode.Flow
import Classwright.Proofs.Emit.Layout

/-!
# What is known along code

A property of code that control carries from one instruction to the next is certified by a mark on
each instruction that says what is known in front of it (`Marked`).  A `Dataflow` says with which
marks an instruction may stand and which marks may follow.  `WithMarks` says that code can be marked
so that this holds wherever control goes, and there is one rule for each way in which code is put
together: one piece behind another, the code of a comparison, of an `if` and of a `while`.
-/

namespace Classwright

variable {α : Type}

/-- Instructions with what is known in front of each. -/
abbrev Marked (α : Type) := List (Instruction × α)

/-- The instructions alone. -/
def Marked.code (code : Marked α) : Code :=
  code.map Prod.fst

@[simp] theorem Marked.code_nil : Marked.code ([] : Marked α) = [] := rfl

@[simp] theorem Marked.code_cons (x : Instruction × α) (rest : Marked α) :
    Marked.code (x :: rest) = x.1 :: rest.code := rfl

@[simp] theorem Marked.code_append (pre post : Marked α) :
    Marked.code (pre ++ post) = pre.code ++ post.code :=
  List.map_append

/-- What is known where `code` starts is as `P` says. -/
def StartsWith (P : α → Prop) (code : Marked α) : Prop :=
  ∃ i a rest, code = (i, a) :: rest ∧ P a

theorem StartsWith.imp {P Q : α → Prop} {code : Marked α} (h : StartsWith P code)
    (hPQ : ∀ a, P a → Q a) : StartsWith Q code := by
  obtain ⟨i, a, rest, hcode, ha⟩ := h
  exact ⟨i, a, rest, hcode, hPQ a ha⟩

theorem startsWith_cons {P : α → Prop} {i : Instruction} {a : α} (rest : Marked α) (h : P a) :
    StartsWith P ((i, a) :: rest) :=
  ⟨i, a, rest, rfl, h⟩

/-! ### Each instruction in its place -/

/-- `C` holds of each instruction of `code`, with what is in front of it and behind it, when `code`
stands between `pre` and `post`. -/
def EachIn (C : Marked α → Instruction → α → Marked α → Prop) (pre code post : Marked α) : Prop :=
  ∀ before i a behind, code = before ++ (i, a) :: behind → C (pre ++ before) i a (behind ++ post)

section EachIn

variable {C : Marked α → Instruction → α → Marked α → Prop} {pre post : Marked α}

theorem eachIn_nil : EachIn C pre [] post := by
  intro before i a behind h
  simp at h

theorem eachIn_cons {i : Instruction} {a : α} {rest : Marked α} :
    EachIn C pre ((i, a) :: rest) post ↔
      C pre i a (rest ++ post) ∧ EachIn C (pre ++ [(i, a)]) rest post := by
  constructor
  · intro h
    refine ⟨by simpa using h [] i a rest rfl, fun before j b behind hrest => ?_⟩
    have hj := h ((i, a) :: before) j b behind (by rw [hrest, List.cons_append])
    rw [List.append_assoc]
    exact hj
  · rintro ⟨hi, hrest⟩ before j b behind h
    cases before with
    | nil =>
      obtain ⟨hij, rfl⟩ := List.cons.inj h
      obtain ⟨rfl, rfl⟩ := Prod.mk.inj hij
      simpa using hi
    | cons x before =>
      obtain ⟨rfl, rfl⟩ := List.cons.inj h
      have hj := hrest before j b behind rfl
      rw [List.append_assoc] at hj
      exact hj

theorem eachIn_append {code others : Marked α} :
    EachIn C pre (code ++ others) post ↔
      EachIn C pre code (others ++ post) ∧ EachIn C (pre ++ code) others post := by
  induction code generalizing pre with
  | nil => simp [eachIn_nil]
  | cons x code ih =>
    obtain ⟨i, a⟩ := x
    rw [List.cons_append, eachIn_cons, ih, eachIn_cons, List.append_assoc, List.append_assoc,
      and_assoc]
    rfl

end EachIn

/-! ### Flow of what is known -/

/-- How what is known changes along code. -/
structure Dataflow (α : Type) where
  /-- An instruction may stand where something is known. -/
  Allows : Instruction → α → Prop
  /-- Behind an instruction in front of which something is known, something else may be known. -/
  Carries : Instruction → α → α → Prop

/-- An instruction between `pre` and `post` may stand there, and wherever control goes from it, what
is known there may be known behind it. -/
structure MarkedAt (D : Dataflow α) (pre : Marked α) (i : Instruction) (a : α) (post : Marked α) :
    Prop where
  /-- The instruction may stand there. -/
  allows : D.Allows i a
  /-- Control goes on where what is known may be known. -/
  flow : ∀ target ∈ i.successors pre.code.size, ∃ pre' post',
    pre ++ (i, a) :: post = pre' ++ post' ∧ target = (pre'.code.size : Int) ∧
      StartsWith (D.Carries i a) post'

section MarkedAt

variable {D : Dataflow α} {pre post : Marked α}

/-- An instruction with the next one as its only successor. -/
theorem markedAt_next {i : Instruction} {a : α}
    (hs : ∀ pc : Nat, i.successors pc = [(pc : Int) + i.size]) (ha : D.Allows i a)
    (hpost : StartsWith (D.Carries i a) post) : MarkedAt D pre i a post := by
  refine ⟨ha, fun target htarget => ?_⟩
  rw [hs, List.mem_singleton] at htarget
  refine ⟨pre ++ [(i, a)], post, by simp, ?_, hpost⟩
  rw [htarget]
  simp

/-- A jump. -/
theorem markedAt_goto {operand : Int} {a : α} (ha : D.Allows { op := .goto, operand } a)
    (pre' post' : Marked α)
    (hcode : pre ++ ({ op := .goto, operand }, a) :: post = pre' ++ post')
    (htarget : (pre.code.size : Int) + operand = pre'.code.size)
    (hpost : StartsWith (D.Carries { op := .goto, operand } a) post') :
    MarkedAt D pre { op := .goto, operand } a post := by
  refine ⟨ha, fun target ht => ?_⟩
  rw [Instruction.successors, List.mem_singleton] at ht
  exact ⟨pre', post', hcode, ht.trans htarget, hpost⟩

/-- A conditional branch. -/
theorem markedAt_branch {op : Opcode} (hop : op.isTest = true) {operand : Int} {a : α}
    (ha : D.Allows { op, operand } a) (hpost : StartsWith (D.Carries { op, operand } a) post)
    (pre' post' : Marked α) (hcode : pre ++ ({ op, operand }, a) :: post = pre' ++ post')
    (htarget : (pre.code.size : Int) + operand = pre'.code.size)
    (hpost' : StartsWith (D.Carries { op, operand } a) post') :
    MarkedAt D pre { op, operand } a post := by
  refine ⟨ha, fun target ht => ?_⟩
  rw [Instruction.successors_test hop, List.mem_cons, List.mem_singleton] at ht
  rcases ht with rfl | rfl
  · refine ⟨pre ++ [(⟨op, operand, false⟩, a)], post, by simp, ?_, hpost⟩
    simp [Instruction.size_test hop]
  · exact ⟨pre', post', hcode, htarget, hpost'⟩

end MarkedAt

/-- `code` can be marked: what is known where control enters it is as `P` says, and `exit` holds of
what follows it. -/
def WithMarks (D : Dataflow α) (P : α → Prop) (exit : Marked α → Prop) (code : Code) : Prop :=
  ∃ marks : Marked α, marks.code = code ∧ ∀ pre post, exit post →
    StartsWith P (marks ++ post) ∧ EachIn (MarkedAt D) pre marks post

namespace WithMarks

variable {D : Dataflow α} {P Q R : α → Prop} {exit : Marked α → Prop} {code : Code}

theorem nil : WithMarks D P (StartsWith P) [] :=
  ⟨[], rfl, fun _ _ h => ⟨h, eachIn_nil⟩⟩

theorem of_exit {exit' : Marked α → Prop} (h : WithMarks D P exit code)
    (hexit : ∀ post, exit' post → exit post) : WithMarks D P exit' code := by
  obtain ⟨marks, hcode, hflow⟩ := h
  exact ⟨marks, hcode, fun pre post hpost => hflow pre post (hexit post hpost)⟩

theorem of_entry (h : WithMarks D P exit code) (hPQ : ∀ a, P a → Q a) :
    WithMarks D Q exit code := by
  obtain ⟨marks, hcode, hflow⟩ := h
  exact ⟨marks, hcode, fun pre post hpost =>
    ⟨(hflow pre post hpost).1.imp hPQ, (hflow pre post hpost).2⟩⟩

/-- Code behind code that leaves what it expects. -/
theorem append {exit' : Marked α → Prop} {others : Code} (h : WithMarks D P exit code)
    (h' : WithMarks D Q exit' others) (hexit : ∀ post, StartsWith Q post → exit post) :
    WithMarks D P exit' (code ++ others) := by
  obtain ⟨marks, rfl, hflow⟩ := h
  obtain ⟨marks', rfl, hflow'⟩ := h'
  refine ⟨marks ++ marks', Marked.code_append _ _, fun pre post hpost => ?_⟩
  obtain ⟨hstart', hmarks'⟩ := hflow' (pre ++ marks) post hpost
  obtain ⟨hstart, hmarks⟩ := hflow pre (marks' ++ post) (hexit _ hstart')
  rw [List.append_assoc]
  exact ⟨hstart, eachIn_append.2 ⟨hmarks, hmarks'⟩⟩

/-- A single instruction with the next one as its only successor. -/
theorem single {i : Instruction} {a : α}
    (hs : ∀ pc : Nat, i.successors pc = [(pc : Int) + i.size]) (hP : P a) (ha : D.Allows i a)
    (hQ : ∀ x, Q x → D.Carries i a x) : WithMarks D P (StartsWith Q) [i] :=
  ⟨[(i, a)], rfl, fun _ post hpost => ⟨startsWith_cons post hP,
    eachIn_cons.2 ⟨markedAt_next hs ha (hpost.imp hQ), eachIn_nil⟩⟩⟩

/-- A return. -/
theorem leave {i : Instruction} {a : α} (hs : ∀ pc, i.successors pc = []) (hP : P a)
    (ha : D.Allows i a) : WithMarks D P (fun _ => True) [i] := by
  refine ⟨[(i, a)], rfl, fun pre post _ => ⟨startsWith_cons post hP,
    eachIn_cons.2 ⟨⟨ha, fun target ht => ?_⟩, eachIn_nil⟩⟩⟩
  rw [hs] at ht
  simp at ht

/-- A comparison, which leaves 0 or 1.  What is known is `a` in front of the branch, `b` behind it
and `g` behind the 0. -/
theorem compare {op : Opcode} (hop : op.isTest = true) {a b g : α} (hP : P a)
    (ha : D.Allows { op, operand := 7 } a) (hab : D.Carries { op, operand := 7 } a b)
    (hb : D.Allows { op := .iconst0 } b) (hbg : D.Carries { op := .iconst0 } b g)
    (hg : D.Allows { op := .goto, operand := 4 } g) (hb' : D.Allows { op := .iconst1 } b)
    (hR : ∀ x, R x → D.Carries { op := .goto, operand := 4 } g x)
    (hR' : ∀ x, R x → D.Carries { op := .iconst1 } b x) :
    WithMarks D P (StartsWith R) (comparisonCode op) := by
  refine ⟨[({ op, operand := 7 }, a), ({ op := .iconst0 }, b), ({ op := .goto, operand := 4 }, g),
    ({ op := .iconst1 }, b)], rfl, fun pre post hpost => ⟨startsWith_cons _ hP, ?_⟩⟩
  have hsize := Instruction.size_test hop 7
  simp only [eachIn_cons]
  refine ⟨markedAt_branch hop ha (startsWith_cons _ hab) (pre ++ [({ op, operand := 7 }, a),
      ({ op := .iconst0 }, b), ({ op := .goto, operand := 4 }, g)])
      (({ op := .iconst1 }, b) :: post) (by simp) ?_ (startsWith_cons _ hab),
    markedAt_next (fun _ => rfl) hb (startsWith_cons _ hbg),
    markedAt_goto hg (pre ++ [({ op, operand := 7 }, a), ({ op := .iconst0 }, b),
      ({ op := .goto, operand := 4 }, g), ({ op := .iconst1 }, b)]) post (by simp) ?_
      (hpost.imp hR),
    markedAt_next (fun _ => rfl) hb' (hpost.imp hR'), eachIn_nil⟩
  · simp only [Marked.code_append, Marked.code_cons, Marked.code_nil, Code.size_append,
      Code.size_cons, hsize, Code.size_nil, Int.natCast_add]
    rfl
  · simp only [Marked.code_append, Marked.code_cons, Marked.code_nil, Code.size_append,
      Code.size_cons, hsize, Code.size_nil, Int.natCast_add]
    rfl

/-- An `if` around the code of its parts.  What is known is `a` in front of it, `b` in front of the
branch and `g` in front of the jump over the then code. -/
theorem select {joins : Bool} {condCode thenCode elseCode : Code} {a b g : α} (hP : P a)
    (ha : D.Allows { op := .iconst1 } a)
    (hc : WithMarks D (D.Carries { op := .iconst1 } a) (StartsWith (· = b)) condCode)
    (hb : ∀ operand, D.Allows { op := .ifEq, operand } b)
    (hQ : ∀ operand x, Q x → D.Carries { op := .ifEq, operand } b x)
    (ht : WithMarks D Q exit thenCode)
    (he : WithMarks D Q (fun post => joins = true → StartsWith (· = g) post) elseCode)
    (hg : ∀ operand, D.Allows { op := .goto, operand } g)
    (hR : ∀ operand x, R x → D.Carries { op := .goto, operand } g x)
    (hexit : ∀ post, exit post → joins = true → StartsWith R post) :
    WithMarks D P exit (selectCode condCode (elseCode ++ joinCode joins thenCode) thenCode) := by
  obtain ⟨mc, rfl, hc⟩ := hc
  obtain ⟨mt, rfl, ht⟩ := ht
  obtain ⟨me, rfl, he⟩ := he
  -- the jump over the then code, if there is one
  obtain ⟨mj, hmj, hstartj, hj⟩ : ∃ mj : Marked α, mj.code = joinCode joins mt.code ∧
      (∀ post, joins = true → StartsWith (· = g) (mj ++ post)) ∧
      ∀ pre post, exit post → EachIn (MarkedAt D) pre mj (mt ++ post) := by
    cases joins with
    | false => exact ⟨[], rfl, by simp, fun _ _ _ => eachIn_nil⟩
    | true =>
      refine ⟨[(⟨.goto, (mt.code.size + 3 : Nat), false⟩, g)], rfl,
        fun post _ => startsWith_cons post rfl, fun pre post hpost => ?_⟩
      refine eachIn_cons.2 ⟨markedAt_goto (hg _) (pre ++
        (⟨.goto, (mt.code.size + 3 : Nat), false⟩, g) :: mt) post (by simp) ?_
        ((hexit post hpost rfl).imp (hR _)), eachIn_nil⟩
      simp [Instruction.size, Opcode.size, Opcode.operand, OperandKind.size]
      omega
  refine ⟨(⟨.iconst1, 0, false⟩, a) :: (mc ++
    ((⟨.ifEq, ((me ++ mj).code.size + 3 : Nat), false⟩, b) :: ((me ++ mj) ++ mt))), ?_,
    fun pre post hpost => ⟨startsWith_cons _ hP, ?_⟩⟩
  · simp [selectCode, hmj]
  · have hcond (pre rest : Marked α) := hc pre
      ((⟨.ifEq, ((me ++ mj).code.size + 3 : Nat), false⟩, b) :: rest) (startsWith_cons rest rfl)
    simp only [eachIn_cons, eachIn_append, List.append_assoc, List.cons_append]
    refine ⟨markedAt_next (fun _ => rfl) ha (hcond [] _).1, (hcond _ _).2,
      markedAt_branch rfl (hb _) ((he [] _ (hstartj _)).1.imp (hQ _))
        (pre ++ (⟨.iconst1, 0, false⟩, a) ::
          (mc ++ (⟨.ifEq, ((me ++ mj).code.size + 3 : Nat), false⟩, b) :: (me ++ mj)))
        (mt ++ post) (by simp) ?_ ((ht [] post hpost).1.imp (hQ _)),
      (he _ _ (hstartj _)).2, hj _ _ hpost, (ht _ _ hpost).2⟩
    simp [Instruction.size, Opcode.size, Opcode.operand, OperandKind.size]
    omega

/-- A `while` around the code of its parts.  What is known is `a` in front of it, `b` in front of
the branch and `g` in front of the jump back. -/
theorem iterate {condCode bodyCode : Code} {a b g : α} (hP : P a)
    (ha : D.Allows { op := .iconst0 } a)
    (hc : WithMarks D (D.Carries { op := .iconst0 } a) (StartsWith (· = b)) condCode)
    (hb : ∀ operand, D.Allows { op := .ifEq, operand } b)
    (hQ : ∀ operand x, Q x → D.Carries { op := .ifEq, operand } b x)
    (hbody : WithMarks D Q exit bodyCode) (hexit : ∀ post, StartsWith (· = g) post → exit post)
    (hg : ∀ operand, D.Allows { op := .goto, operand } g)
    (hga : ∀ operand, D.Carries { op := .goto, operand } g a) :
    WithMarks D P (StartsWith Q) (repeatCode condCode bodyCode) := by
  obtain ⟨mc, rfl, hc⟩ := hc
  obtain ⟨mb, rfl, hbody⟩ := hbody
  refine ⟨(⟨.iconst0, 0, false⟩, a) :: (mc ++ ((⟨.ifEq, (mb.code.size + 6 : Nat), false⟩, b) ::
    (mb ++ [(⟨.goto, -(mb.code.size + 3 + mc.code.size + 1 : Nat), false⟩, g)]))), ?_,
    fun pre post hpost => ⟨startsWith_cons _ hP, ?_⟩⟩
  · simp [repeatCode]
  -- the marks of the parts hold wherever these parts stand
  · have hcond (pre rest : Marked α) := hc pre
      ((⟨.ifEq, (mb.code.size + 6 : Nat), false⟩, b) :: rest) (startsWith_cons rest rfl)
    have hstart (rest : Marked α) : exit
        ((⟨.goto, -(mb.code.size + 3 + mc.code.size + 1 : Nat), false⟩, g) :: rest) :=
      hexit _ (startsWith_cons rest rfl)
    simp only [eachIn_cons, eachIn_append, List.append_assoc, List.cons_append, List.nil_append]
    -- the zero, the condition, the branch out of the loop, the body and the jump back
    refine ⟨markedAt_next (fun _ => rfl) ha (hcond [] _).1, (hcond _ _).2,
      markedAt_branch rfl (hb _) ((hbody [] _ (hstart _)).1.imp (hQ _))
        (pre ++ (⟨.iconst0, 0, false⟩, a) ::
          (mc ++ (⟨.ifEq, (mb.code.size + 6 : Nat), false⟩, b) :: (mb ++
            [(⟨.goto, -(mb.code.size + 3 + mc.code.size + 1 : Nat), false⟩, g)])))
        post (by simp) ?_ (hpost.imp (hQ _)),
      (hbody _ _ (hstart _)).2,
      markedAt_goto (hg _) pre ((⟨.iconst0, 0, false⟩, a) ::
        (mc ++ ((⟨.ifEq, (mb.code.size + 6 : Nat), false⟩, b) :: (mb ++
          (⟨.goto, -(mb.code.size + 3 + mc.code.size + 1 : Nat), false⟩, g) :: post))))
        (by simp) ?_ (startsWith_cons _ (hga _)), eachIn_nil⟩
    · simp [Instruction.size, Opcode.size, Opcode.operand, OperandKind.size]
      omega
    · simp [Instruction.size, Opcode.size, Opcode.operand, OperandKind.size]
      omega

/-- Code that control leaves by a return only. -/
theorem closed (h : WithMarks D P (fun _ => True) code) :
    ∃ marks : Marked α, marks.code = code ∧ StartsWith P marks ∧
      EachIn (MarkedAt D) [] marks [] := by
  obtain ⟨marks, hcode, hflow⟩ := h
  obtain ⟨hstart, hmarks⟩ := hflow [] [] trivial
  rw [List.append_nil] at hstart
  exact ⟨marks, hcode, hstart, hmarks⟩

end WithMarks

end Classwright
