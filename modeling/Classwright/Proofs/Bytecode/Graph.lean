import Mathlib.Logic.Relation
import Classwright.Proofs.Bytecode.Flow

/-!
# The graph of control

The edges of the graph of some code are the ways from each of its instructions to the next
(`Code.Flows`), and control can get wherever they lead (`Code.Leads`).  Pieces of code are put
together from left to right: of each it counts whether control that enters it at its start can get
to its end (`Code.EndsIff`).
-/

namespace Classwright

namespace Code

/-- Control can go from an instruction of code that starts at `start` to another place. -/
def Flows (start : Nat) (code : Code) (pc next : Nat) : Prop :=
  ∃ i, (pc, i) ∈ locate start code ∧ (next : Int) ∈ i.successors pc

/-- Control can get from one place to another by the instructions of code that starts at `start`. -/
def Leads (start : Nat) (code : Code) : Nat → Nat → Prop :=
  Relation.ReflTransGen (Flows start code)

/-- Control can get from `low` to `high` by the instructions between the two alone. -/
def Crosses (code : Code) (low high : Nat) : Prop :=
  Relation.ReflTransGen (fun pc next => (low ≤ pc ∧ pc < high) ∧ code.Flows 0 pc next) low high

/-! ### Edges -/

variable {start pc next : Nat}

theorem not_flows_nil : ¬ Flows start [] pc next := by
  simp [Flows, locate]

theorem flows_cons {i : Instruction} {rest : Code} :
    Flows start (i :: rest) pc next ↔
      (pc = start ∧ (next : Int) ∈ i.successors start) ∨ Flows (start + i.size) rest pc next := by
  simp only [Flows, locate, List.mem_cons, Prod.mk.injEq]
  constructor
  · rintro ⟨j, ⟨rfl, rfl⟩ | hj, hnext⟩
    · exact Or.inl ⟨rfl, hnext⟩
    · exact Or.inr ⟨j, hj, hnext⟩
  · rintro (⟨rfl, hnext⟩ | ⟨j, hj, hnext⟩)
    · exact ⟨i, Or.inl ⟨rfl, rfl⟩, hnext⟩
    · exact ⟨j, Or.inr hj, hnext⟩

theorem flows_append {code others : Code} :
    Flows start (code ++ others) pc next ↔
      Flows start code pc next ∨ Flows (start + code.size) others pc next := by
  simp only [Flows, locate_append, List.mem_append, or_and_right, exists_or]

theorem flows_test {op : Opcode} (hop : op.isTest = true) {distance : Nat} {rest : Code} :
    Flows start ({ op, operand := distance } :: rest) pc next ↔
      (pc = start ∧ (next = start + 3 ∨ next = start + distance)) ∨
        Flows (start + 3) rest pc next := by
  rw [flows_cons, Instruction.successors_test hop, Instruction.size_test hop, List.mem_cons,
    List.mem_singleton]
  refine or_congr_left (and_congr_right fun _ => ?_)
  omega

theorem flows_goto {operand : Int} {rest : Code} :
    Flows start ({ op := .goto, operand } :: rest) pc next ↔
      (pc = start ∧ (next : Int) = start + operand) ∨ Flows (start + 3) rest pc next := by
  rw [flows_cons, Instruction.successors, List.mem_singleton]
  rfl

/-- An edge starts inside the code. -/
theorem Flows.bounds {code : Code} (h : Flows start code pc next) :
    start ≤ pc ∧ pc < start + code.size := by
  obtain ⟨i, hi, -⟩ := h
  obtain ⟨pre, post, rfl, rfl⟩ := mem_locate.1 hi
  have hpos := i.size_pos
  rw [size_append, size_cons]
  omega

/-- Cutting the slots of wide instructions does not change the graph. -/
theorem flows_map_cut {code : Code} (h : ∀ i ∈ code, i.cut.Encodable) :
    Flows start (code.map Instruction.cut) = Flows start code := by
  induction code generalizing start with
  | nil => rfl
  | cons i rest ih =>
    rw [List.forall_mem_cons] at h
    funext pc next
    rw [List.map_cons, flows_cons, flows_cons, ih h.2, Instruction.size_cut,
      Instruction.successors_cut h.1]

theorem size_map_cut (code : Code) : size (code.map Instruction.cut) = code.size := by
  induction code with
  | nil => rfl
  | cons i rest ih => rw [List.map_cons, size_cons, size_cons, Instruction.size_cut, ih]

/-! ### Paths -/

theorem Leads.append_right {code : Code} {x y : Nat} (h : Leads start code x y) (others : Code) :
    Leads start (code ++ others) x y :=
  Relation.ReflTransGen.mono (fun _ _ hflow => flows_append.2 (Or.inl hflow)) x y h

theorem Leads.append_left {code others : Code} {x y : Nat}
    (h : Leads (start + code.size) others x y) : Leads start (code ++ others) x y :=
  Relation.ReflTransGen.mono (fun _ _ hflow => flows_append.2 (Or.inr hflow)) x y h

/-- A piece of code is crossed by its own instructions. -/
theorem crosses_iff (pre part post : Code) :
    Crosses (pre ++ (part ++ post)) pre.size (pre.size + part.size) ↔
      Leads pre.size part pre.size (pre.size + part.size) := by
  have hedge (pc next : Nat) : ((pre.size ≤ pc ∧ pc < pre.size + part.size) ∧
      Flows 0 (pre ++ (part ++ post)) pc next) ↔ Flows pre.size part pc next := by
    rw [flows_append, flows_append, Nat.zero_add]
    constructor
    · rintro ⟨hpc, hpre | hpart | hpost⟩
      · have hbounds := hpre.bounds
        omega
      · exact hpart
      · have hbounds := hpost.bounds
        omega
    · exact fun hpart => ⟨hpart.bounds, Or.inr (Or.inl hpart)⟩
  simp only [Crosses, Leads, hedge]

/-! ### Pieces of code -/

/-- Control that enters the code at its start stays in it until it gets to its end, and it can get
there if and only if `ends` holds. -/
structure EndsIff (code : Code) (ends : Prop) : Prop where
  /-- No edge leads out of the code. -/
  closed : ∀ {start pc next : Nat}, Flows start code pc next →
    start ≤ next ∧ next ≤ start + code.size
  /-- A path leads from its start to its end. -/
  leads_iff : ∀ start, Leads start code start (start + code.size) ↔ ends

namespace EndsIff

variable {code others : Code} {p q : Prop}

/-- Control stays inside the code. -/
theorem leads_bounds (h : code.EndsIff p) {x : Nat} (hx : Leads start code start x) :
    start ≤ x ∧ x ≤ start + code.size := by
  induction hx with
  | refl => exact ⟨Nat.le_refl _, Nat.le_add_right _ _⟩
  | tail _ hflow => exact h.closed hflow

theorem congr (h : code.EndsIff p) (hpq : p ↔ q) : code.EndsIff q :=
  propext hpq ▸ h

/-- The end of code that starts at 0. -/
theorem leads_zero_iff (h : code.EndsIff p) : Leads 0 code 0 code.size ↔ p := by
  rw [← h.leads_iff 0, Nat.zero_add]

theorem map_cut (h : code.EndsIff p) (hcut : ∀ i ∈ code, i.cut.Encodable) :
    EndsIff (code.map Instruction.cut) p where
  closed hflow := by
    rw [flows_map_cut hcut] at hflow
    rw [size_map_cut]
    exact h.closed hflow
  leads_iff start := by rw [Leads, flows_map_cut hcut, size_map_cut, ← h.leads_iff start, Leads]

theorem nil : EndsIff [] True :=
  ⟨fun h => absurd h not_flows_nil, fun _ => iff_of_true .refl trivial⟩

/-- An instruction with the next one as its only successor. -/
theorem pass {i : Instruction} (hs : ∀ pc : Nat, i.successors pc = [(pc : Int) + i.size]) :
    EndsIff [i] True := by
  have hflow {start pc next : Nat} :
      Flows start [i] pc next ↔ pc = start ∧ next = start + i.size := by
    rw [flows_cons, hs, List.mem_singleton, or_iff_left not_flows_nil]
    omega
  refine ⟨fun h => ?_, fun start => iff_of_true (.single (hflow.2 ⟨rfl, rfl⟩)) trivial⟩
  obtain ⟨-, rfl⟩ := hflow.1 h
  exact ⟨Nat.le_add_right _ _, Nat.le_refl _⟩

/-- An instruction behind which control does not go on. -/
theorem stop {i : Instruction} (hs : ∀ pc : Nat, i.successors pc = []) : EndsIff [i] False := by
  have hflow {start pc next : Nat} : ¬ Flows start [i] pc next := by
    simp [flows_cons, hs, not_flows_nil]
  refine ⟨fun h => absurd h hflow, fun start => iff_of_false (fun h => ?_) id⟩
  rcases h.cases_head with heq | ⟨_, hstep, -⟩
  · have hpos := i.size_pos
    rw [size_cons] at heq
    omega
  · exact hflow hstep

/-- Control gets through two pieces of code if it gets through both. -/
theorem append (hp : code.EndsIff p) (hq : others.EndsIff q) :
    EndsIff (code ++ others) (p ∧ q) where
  closed h := by
    rw [size_append]
    rcases flows_append.1 h with h | h
    · have hbounds := hp.closed h
      omega
    · have hbounds := hq.closed h
      omega
  leads_iff start := by
    rw [size_append, ← Nat.add_assoc]
    constructor
    · intro h
      -- Wherever control gets, it is still in the first piece, or has come through it.
      have hwhere {x : Nat} (hx : Leads start (code ++ others) start x) :
          Leads start code start x ∨
            p ∧ Leads (start + code.size) others (start + code.size) x := by
        induction hx with
        | refl => exact Or.inl .refl
        | @tail x y _ hflow ih =>
          rcases ih with hx | ⟨hends, hx⟩ <;> rcases flows_append.1 hflow with hfirst | hsecond
          · exact Or.inl (hx.tail hfirst)
          · have hbounds := hp.leads_bounds hx
            have hsource := hsecond.bounds
            obtain rfl : x = start + code.size := by omega
            exact Or.inr ⟨(hp.leads_iff start).1 hx, .single hsecond⟩
          · have hbounds := hq.leads_bounds hx
            have hsource := hfirst.bounds
            omega
          · exact Or.inr ⟨hends, hx.tail hsecond⟩
      rcases hwhere h with hx | ⟨hends, hx⟩
      · have hbounds := hp.leads_bounds hx
        have hempty : others.size = 0 := by omega
        rw [hempty, Nat.add_zero] at hx
        refine ⟨(hp.leads_iff start).1 hx, (hq.leads_iff (start + code.size)).1 ?_⟩
        rw [hempty]
        exact .refl
      · exact ⟨hends, (hq.leads_iff _).1 hx⟩
    · rintro ⟨hends, hends'⟩
      exact (((hp.leads_iff start).2 hends).append_right others).trans
        ((hq.leads_iff _).2 hends').append_left

/-- Two pieces of code that control gets through. -/
theorem append_true (hp : code.EndsIff True) (hq : others.EndsIff True) :
    EndsIff (code ++ others) True := by
  simpa using hp.append hq

theorem cons {i : Instruction} (hs : ∀ pc : Nat, i.successors pc = [(pc : Int) + i.size])
    (hp : code.EndsIff True) : EndsIff (i :: code) True :=
  append_true (pass hs) hp

/-- Control that has got behind some code does not come back to it. -/
theorem leads_behind (hq : others.EndsIff q) (front : Code) {x y : Nat}
    (hx : start + front.size ≤ x) (h : Leads start (front ++ others) x y) :
    Leads (start + front.size) others x y := by
  have hstay : start + front.size ≤ y ∧ Leads (start + front.size) others x y := by
    induction h with
    | refl => exact ⟨hx, .refl⟩
    | tail _ hflow ih =>
      rcases flows_append.1 hflow with hfirst | hsecond
      · have hsource := hfirst.bounds
        omega
      · exact ⟨(hq.closed hsecond).1, ih.2.tail hsecond⟩
  exact hstay.2

/-- A jump over code. -/
theorem jump (hp : code.EndsIff p) :
    EndsIff ({ op := .goto, operand := (code.size + 3 : Nat) } :: code) True where
  closed {start pc next} h := by
    have hsize : size ({ op := .goto, operand := (code.size + 3 : Nat) } :: code) =
        3 + code.size := rfl
    rw [hsize]
    rcases flows_goto.1 h with ⟨rfl, hnext⟩ | h
    · omega
    · have hbounds := hp.closed h
      omega
  leads_iff start := by
    refine iff_of_true (.single (flows_goto.2 (Or.inl ⟨rfl, ?_⟩))) trivial
    rw [size_cons, Nat.add_comm code.size 3, Int.natCast_add]
    rfl

/-- A conditional branch into code that control gets through. -/
theorem test {op : Opcode} (hop : op.isTest = true) (hp : code.EndsIff True) {distance : Nat}
    (hle : distance ≤ code.size + 3) : EndsIff ({ op, operand := distance } :: code) True where
  closed {start pc next} h := by
    rw [size_cons, Instruction.size_test hop]
    rcases (flows_test hop).1 h with ⟨rfl, rfl | rfl⟩ | h
    · omega
    · omega
    · have hbounds := hp.closed h
      omega
  leads_iff start := by
    have hthrough : Leads start ({ op, operand := distance } :: code) (start + 3)
        (start + 3 + code.size) :=
      Relation.ReflTransGen.mono (fun _ _ hflow => (flows_test hop).2 (Or.inr hflow)) _ _
        ((hp.leads_iff _).2 trivial)
    rw [size_cons, Instruction.size_test hop, ← Nat.add_assoc]
    exact iff_of_true (hthrough.head ((flows_test hop).2 (Or.inl ⟨rfl, Or.inl rfl⟩))) trivial

/-- A conditional branch over code that control does not get through. -/
theorem skip {op : Opcode} (hop : op.isTest = true) (ho : code.EndsIff False)
    (hq : others.EndsIff q) :
    EndsIff ({ op, operand := (code.size + 3 : Nat) } :: (code ++ others)) q where
  closed {start pc next} h := by
    rw [size_cons, Instruction.size_test hop, size_append]
    rcases (flows_test hop).1 h with ⟨rfl, rfl | rfl⟩ | h
    · omega
    · omega
    · have hbounds := (ho.append hq).closed h
      rw [size_append] at hbounds
      omega
  leads_iff start := by
    have hend : start + size ({ op, operand := (code.size + 3 : Nat) } :: (code ++ others)) =
        start + 3 + code.size + others.size := by
      rw [size_cons, Instruction.size_test hop, size_append]
      omega
    have hbranch : start + (code.size + 3) = start + 3 + code.size := by omega
    -- a way behind the test stays there
    have hbehind {x y : Nat} (hx : start + 3 ≤ x)
        (h : Leads start ({ op, operand := (code.size + 3 : Nat) } :: (code ++ others)) x y) :
        Leads (start + 3) (code ++ others) x y := by
      rw [← Instruction.size_test hop (code.size + 3 : Nat)] at hx ⊢
      exact (ho.append hq).leads_behind [_] hx h
    rw [hend, ← hq.leads_iff (start + 3 + code.size)]
    constructor
    · intro h
      rcases h.cases_head with heq | ⟨next, hflow, hrest⟩
      · omega
      -- control enters the code, which it does not leave, or goes over it
      · rcases (flows_test hop).1 hflow with ⟨-, rfl | rfl⟩ | hflow
        · have hfirst := (ho.append hq).leads_iff (start + 3)
          rw [size_append, ← Nat.add_assoc] at hfirst
          exact (hfirst.1 (hbehind (Nat.le_refl _) hrest)).1.elim
        · rw [hbranch] at hrest
          exact hq.leads_behind code (Nat.le_refl _) (hbehind (Nat.le_add_right _ _) hrest)
        · have hsource := hflow.bounds
          omega
    · intro h
      have hothers :
          Leads start ({ op, operand := (code.size + 3 : Nat) } :: (code ++ others)) _ _ :=
        Relation.ReflTransGen.mono (fun _ _ hflow => (flows_test hop).2 (Or.inr hflow)) _ _
          h.append_left
      exact hothers.head ((flows_test hop).2 (Or.inl ⟨rfl, Or.inr hbranch.symm⟩))

/-- A loop: a conditional branch leaves it, and a jump at its end goes back to its start. -/
theorem loop {op : Opcode} (hop : op.isTest = true) (hp : code.EndsIff True)
    (hq : others.EndsIff q) :
    EndsIff (code ++ { op, operand := (others.size + 6 : Nat) } ::
      (others ++ [{ op := .goto, operand := -(others.size + 3 + code.size : Nat) }])) True := by
  -- what leads on inside the loop: its two parts, the test and the jump back
  have hedges {start pc next : Nat} :
      Flows start (code ++ { op, operand := (others.size + 6 : Nat) } ::
          (others ++ [{ op := .goto, operand := -(others.size + 3 + code.size : Nat) }])) pc next ↔
        Flows start code pc next ∨
          (pc = start + code.size ∧
            (next = start + code.size + 3 ∨ next = start + code.size + (others.size + 6))) ∨
          Flows (start + code.size + 3) others pc next ∨
          pc = start + code.size + 3 + others.size ∧ next = start := by
    rw [flows_append, flows_test hop, flows_append, flows_goto, or_iff_left not_flows_nil]
    refine or_congr_right (or_congr_right (or_congr_right (and_congr_right fun _ => ?_)))
    omega
  have hsize : size (code ++ { op, operand := (others.size + 6 : Nat) } ::
      (others ++ [{ op := .goto, operand := -(others.size + 3 + code.size : Nat) }])) =
        code.size + (others.size + 6) := by
    have hback : size [{ op := .goto, operand := -(others.size + 3 + code.size : Nat) }] = 3 := rfl
    rw [size_append, size_cons, Instruction.size_test hop, size_append, hback]
    omega
  refine ⟨fun h => ?_, fun start => iff_of_true ?_ trivial⟩
  · rw [hsize]
    rcases hedges.1 h with h | ⟨rfl, rfl | rfl⟩ | h | ⟨rfl, rfl⟩
    · have hbounds := hp.closed h
      omega
    · omega
    · omega
    · have hbounds := hq.closed h
      omega
    · omega
  · rw [hsize, ← Nat.add_assoc]
    exact (((hp.leads_iff start).2 trivial).append_right _).tail
      (hedges.2 (Or.inr (Or.inl ⟨rfl, Or.inr rfl⟩)))

end EndsIff

/-! ### Pieces inside other code -/

/-- `part` stands `offset` bytes behind the start of `code`, and control can get there. -/
structure Holds (code part : Code) (offset : Nat) : Prop where
  /-- It stands between other code. -/
  split : ∃ pre post, code = pre ++ (part ++ post) ∧ pre.size = offset
  /-- A path leads to its start. -/
  leads : ∀ start, Leads start code start (start + offset)

namespace Holds

variable {code part inner front between post : Code} {offset depth : Nat} {p : Prop} {op : Opcode}

theorem trans (h : code.Holds part offset) (h' : part.Holds inner depth) :
    code.Holds inner (offset + depth) := by
  obtain ⟨pre, post, rfl, rfl⟩ := h.split
  obtain ⟨pre', post', rfl, rfl⟩ := h'.split
  refine ⟨⟨pre ++ pre', post' ++ post, by simp, size_append pre pre'⟩, fun start => ?_⟩
  rw [← Nat.add_assoc]
  exact (h.leads start).trans ((h'.leads _).append_right post).append_left

/-- Control that is in the piece gets through it just if it gets through the piece alone. -/
theorem crosses_iff (h : code.Holds part offset) (hp : part.EndsIff p) :
    Crosses code offset (offset + part.size) ↔ p := by
  obtain ⟨pre, post, rfl, rfl⟩ := h.split
  rw [Code.crosses_iff, hp.leads_iff]

/-- A piece behind code that control gets through. -/
theorem behind (hf : front.EndsIff True) (part post : Code) :
    Holds (front ++ (part ++ post)) part front.size :=
  ⟨⟨front, post, rfl, rfl⟩, fun start => ((hf.leads_iff start).2 trivial).append_right _⟩

/-- A piece behind a conditional branch. -/
theorem behind_test (hop : op.isTest = true) (hf : front.EndsIff True) (distance : Nat)
    (part post : Code) :
    Holds (front ++ { op, operand := distance } :: (part ++ post)) part (front.size + 3) where
  split := by
    refine ⟨front ++ [{ op, operand := distance }], post, by simp, ?_⟩
    rw [size_append, size_cons, Instruction.size_test hop, size_nil]
  leads start := by
    refine (((hf.leads_iff start).2 trivial).append_right _).tail (flows_append.2 (Or.inr ?_))
    exact (flows_test hop).2 (Or.inl ⟨rfl, Or.inl (Nat.add_assoc _ _ _).symm⟩)

/-- A piece that a conditional branch leads to. -/
theorem target_of_test (hop : op.isTest = true) (hf : front.EndsIff True)
    (between part post : Code) :
    Holds (front ++ { op, operand := (between.size + 3 : Nat) } :: (between ++ (part ++ post))) part
      (front.size + (between.size + 3)) where
  split := by
    refine ⟨front ++ { op, operand := (between.size + 3 : Nat) } :: between, post, by simp, ?_⟩
    rw [size_append, size_cons, Instruction.size_test hop, Nat.add_comm 3]
  leads start := by
    refine (((hf.leads_iff start).2 trivial).append_right _).tail (flows_append.2 (Or.inr ?_))
    exact (flows_test hop).2 (Or.inl ⟨rfl, Or.inr (Nat.add_assoc _ _ _).symm⟩)

end Holds

end Code

end Classwright
