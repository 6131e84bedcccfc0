/-
# Steps that succeed

A step of a build reads and writes one state, and may fail.  What is proved of
builds is proved of those that succeed, so the notion worked with is a triple: a
step `m`, taken in a state `b`, gives a result `a` and leaves a state `b'`.

`Gives` opens along the program: of `m >>= f` it says that `m` gives something
from which `f` goes on.  One such equivalence stands here for every step that the
module of the build state defines; with them `simp` turns a hypothesis on a whole
step into the facts that its parts give, and no proof further on opens a step down
to the monad.
-/
import FeatureSynth.Build.Candidate

namespace FeatureSynth

namespace Build

/-- A step, taken in a state, succeeds with a result and leaves a state. -/
def Gives {α : Type} (m : Build α) (b : BuildState) (a : α) (b' : BuildState) : Prop :=
  m.run b = (.ok a, b')

variable {α β : Type} {b b' : BuildState}

/-! ## The monad -/

theorem run_bind (m : Build α) (f : α → Build β) (b : BuildState) :
    (m >>= f).run b =
      match m.run b with
      | (.ok a, b₁) => (f a).run b₁
      | (.error e, b₁) => (.error e, b₁) := by
  show (match m.run b with | (x, b₁) => (ExceptT.bindCont f x).run b₁) = _
  cases m.run b with
  | mk x b₁ => cases x <;> rfl

@[simp] theorem gives_pure {x a : α} : (pure x : Build α).Gives b a b' ↔ a = x ∧ b' = b := by
  constructor
  · intro h; cases h; exact ⟨rfl, rfl⟩
  · rintro ⟨rfl, rfl⟩; rfl

@[simp low] theorem gives_bind {m : Build α} {f : α → Build β} {c : β} :
    (m >>= f).Gives b c b' ↔ ∃ a b₁, m.Gives b a b₁ ∧ (f a).Gives b₁ c b' := by
  simp only [Gives, run_bind]
  cases m.run b with
  | mk x b₁ =>
    cases x with
    | ok a =>
      constructor
      · intro h; exact ⟨a, b₁, rfl, h⟩
      · rintro ⟨_, _, h, h'⟩; cases h; exact h'
    | error e =>
      constructor
      · intro h; cases h
      · rintro ⟨_, _, h, -⟩; cases h

@[simp] theorem gives_map {m : Build α} {f : α → β} {c : β} :
    (f <$> m).Gives b c b' ↔ ∃ a, m.Gives b a b' ∧ c = f a := by
  rw [map_eq_pure_bind, gives_bind]
  simp only [gives_pure]
  constructor
  · rintro ⟨a, _, h, rfl, rfl⟩; exact ⟨a, h, rfl⟩
  · rintro ⟨a, h, rfl⟩; exact ⟨a, b', h, rfl, rfl⟩

@[simp] theorem gives_get {s : BuildState} :
    (get : Build BuildState).Gives b s b' ↔ s = b ∧ b' = b := by
  constructor
  · intro h; cases h; exact ⟨rfl, rfl⟩
  · rintro ⟨rfl, rfl⟩; rfl

@[simp] theorem gives_get_bind {f : BuildState → Build β} {c : β} :
    ((get : Build BuildState) >>= f).Gives b c b' ↔ (f b).Gives b c b' :=
  Iff.rfl

@[simp] theorem gives_modify {f : BuildState → BuildState} {u : Unit} :
    (modify f : Build Unit).Gives b u b' ↔ b' = f b := by
  constructor
  · intro h; cases h; rfl
  · rintro rfl; rfl

@[simp] theorem gives_modify_bind {f : BuildState → BuildState} {g : Unit → Build β} {c : β} :
    ((modify f : Build Unit) >>= g).Gives b c b' ↔ (g ()).Gives (f b) c b' :=
  Iff.rfl

@[simp] theorem gives_throw {e : BuildError} {a : α} :
    (throw e : Build α).Gives b a b' ↔ False := by
  constructor
  · intro h; cases h
  · exact False.elim

@[simp] theorem gives_lift {x : Except BuildError α} {a : α} :
    (lift x).Gives b a b' ↔ x = .ok a ∧ b' = b := by
  cases x with
  | ok y => simp [lift, eq_comm]
  | error e => simp [lift]

@[simp] theorem gives_lift_bind {x : Except BuildError α} {f : α → Build β} {c : β} :
    (lift x >>= f).Gives b c b' ↔ ∃ a, x = .ok a ∧ (f a).Gives b c b' := by
  rw [gives_bind]
  simp only [gives_lift]
  constructor
  · rintro ⟨a, _, ⟨h, rfl⟩, h'⟩; exact ⟨a, h, h'⟩
  · rintro ⟨a, h, h'⟩; exact ⟨a, b, ⟨h, rfl⟩, h'⟩

@[simp] theorem gives_forM_nil {f : α → Build Unit} {u : Unit} :
    (forM ([] : List α) f).Gives b u b' ↔ b' = b := by
  simp

@[simp] theorem gives_forM_cons {f : α → Build Unit} {x : α} {xs : List α} {u : Unit} :
    (forM (x :: xs) f).Gives b u b' ↔ ∃ b₁, (f x).Gives b () b₁ ∧ (forM xs f).Gives b₁ u b' := by
  rw [List.forM_cons, gives_bind]
  constructor
  · rintro ⟨_, b₁, first, rest⟩; exact ⟨b₁, first, rest⟩
  · rintro ⟨b₁, first, rest⟩; exact ⟨(), b₁, first, rest⟩

/-- What every round of a loop keeps, the loop keeps. -/
theorem gives_forM_induct {f : α → Build Unit} (P : BuildState → Prop) :
    ∀ {xs : List α} {b b' : BuildState} {u : Unit},
      (∀ x ∈ xs, ∀ b b', P b → (f x).Gives b () b' → P b') →
      P b → (forM xs f).Gives b u b' → P b'
  | [], b, b', u, _, h, run => by
      rw [gives_forM_nil.mp run]; exact h
  | x :: xs, b, b', u, step, h, run => by
      obtain ⟨b₁, first, rest⟩ := gives_forM_cons.mp run
      exact gives_forM_induct P (fun y hy => step y (List.mem_cons_of_mem _ hy))
        (step x List.mem_cons_self b b₁ h first) rest

/-! ## Steps on the registry and the schema -/

@[simp] theorem entity_eq_ok {s : Schema} {C : String} {e : Entity} :
    s.entity C = .ok e ↔ s.entity? C = some e := by
  unfold Schema.entity
  cases s.entity? C <;> simp [breach]

@[simp] theorem record_eq_ok {g : Registry} {C : String} {c : ClassRecord} :
    g.record C = .ok c ↔ g.class? C = some c := by
  unfold Registry.record
  cases g.class? C <;> simp [breach]

@[simp] theorem gives_record {C : String} {c : ClassRecord} :
    (record C).Gives b c b' ↔ b.registry.class? C = some c ∧ b' = b := by
  simp [record]

@[simp] theorem gives_record_bind {C : String} {f : ClassRecord → Build β} {x : β} :
    (record C >>= f).Gives b x b' ↔
      ∃ c, b.registry.class? C = some c ∧ (f c).Gives b x b' := by
  simp [record]

@[simp] theorem gives_setRecord {C : String} {c : ClassRecord} {u : Unit} :
    (setRecord C c).Gives b u b' ↔ b' = { b with registry := b.registry.set C c } :=
  gives_modify

@[simp] theorem gives_register {C : String} {more : ClassRecord → Except BuildError ClassRecord}
    {u : Unit} :
    (register C more).Gives b u b' ↔
      ∃ c c', b.registry.class? C = some c ∧ more c = .ok c' ∧
        b' = { b with registry := b.registry.set C c' } := by
  simp [register]

@[simp] theorem gives_entity {C : String} {e : Entity} :
    (entity C).Gives b e b' ↔ b.schema.entity? C = some e ∧ b' = b := by
  simp [entity]

@[simp] theorem gives_entity_bind {C : String} {f : Entity → Build β} {x : β} :
    (entity C >>= f).Gives b x b' ↔ ∃ e, b.schema.entity? C = some e ∧ (f e).Gives b x b' := by
  simp [entity]

@[simp] theorem gives_edit {C : String} {change : Entity → Except BuildError Entity} {u : Unit} :
    (edit C change).Gives b u b' ↔
      ∃ e e', b.schema.entity? C = some e ∧ change e = .ok e' ∧
        b' = { b with schema := b.schema.setEntity C e' } := by
  simp [edit]

@[simp] theorem gives_reuse {name n : String} :
    (reuse name).Gives b n b' ↔ n = name ∧ b' = { b with reused := b.reused + 1 } := by
  simp [reuse, and_comm]

@[simp] theorem gives_checkInterrupt {u : Unit} :
    checkInterrupt.Gives b u b' ↔
      b.interrupt.look.1 = false ∧ b' = { b with interrupt := b.interrupt.look.2 } := by
  cases h : b.interrupt.look.1 <;> simp [checkInterrupt, h]

/-! ## Names -/

/-- Where the names of a kind come from. -/
abbrev Naming := NameSource → Space → Except BuildError (String × NameSource)

@[simp] theorem gives_freeName {C name : String} {make : Naming} :
    (freeName C make).Gives b name b' ↔
      ∃ stem names e, make b.names b.space = .ok (stem, names) ∧ b.schema.entity? C = some e ∧
        name = e.freeName stem ∧ b' = { b with names } := by
  simp only [freeName, nextName, bind_assoc, gives_get_bind, gives_lift_bind, gives_modify_bind,
    pure_bind, gives_entity_bind, gives_pure]
  constructor
  · rintro ⟨⟨stem, names⟩, h, e, he, rfl, rfl⟩; exact ⟨stem, names, e, h, he, rfl, rfl⟩
  · rintro ⟨stem, names, e, h, he, rfl, rfl⟩; exact ⟨(stem, names), h, e, he, rfl, rfl⟩

/-! ## Steps that fail on the spot -/

/-- In a state a step succeeds. -/
def Succeeds (m : Build α) (b : BuildState) : Prop := ∃ a b', m.Gives b a b'

theorem Succeeds.bind {m : Build α} {f : α → Build β} {a : α} {b₁ : BuildState}
    (h : m.Gives b a b₁) (hf : (f a).Succeeds b₁) : (m >>= f).Succeeds b := by
  obtain ⟨c, b', hf⟩ := hf
  exact ⟨c, b', gives_bind.mpr ⟨a, b₁, h, hf⟩⟩

/-- The same for a step taken for its effect only. -/
theorem Succeeds.next {m : Build Unit} {f : Unit → Build β} {b₁ : BuildState} (h : m.Gives b () b₁)
    (hf : (f ()).Succeeds b₁) : (m >>= f).Succeeds b :=
  .bind h hf

/-- In a state a step succeeds, or it fails and leaves the state as it was. -/
def Whole (m : Build α) (b : BuildState) : Prop := m.Succeeds b ∨ (m.run b).2 = b

namespace Whole

variable {C : String}

theorem lift_bind {x : Except BuildError α} {f : α → Build β}
    (h : ∀ a, x = .ok a → (f a).Whole b) : (lift x >>= f).Whole b := by
  cases x with
  | ok a => exact h a rfl
  | error e => exact .inr rfl

theorem record_bind {f : ClassRecord → Build β}
    (h : ∀ c, b.registry.class? C = some c → (f c).Whole b) : (record C >>= f).Whole b :=
  lift_bind (x := b.registry.record C) fun c hc => h c (record_eq_ok.mp hc)

theorem entity_bind {f : Entity → Build β}
    (h : ∀ e, b.schema.entity? C = some e → (f e).Whole b) : (entity C >>= f).Whole b :=
  lift_bind (x := b.schema.entity C) fun e he => h e (entity_eq_ok.mp he)

theorem edit (change : Entity → Except BuildError Entity) : (edit C change).Whole b :=
  entity_bind fun _ _ => lift_bind fun _ _ => .inl ⟨(), _, rfl⟩

end Whole

/-! ## Relations between the states before and after -/

/-- Every run of a step that succeeds goes from one state to another by a relation. -/
def Respects {α : Type} (R : BuildState → BuildState → Prop) (m : Build α) : Prop :=
  ∀ ⦃b : BuildState⦄ ⦃a : α⦄ ⦃b' : BuildState⦄, m.Gives b a b' → R b b'

/-- Every run of a step, also one that fails, goes from one state to another by a relation. -/
def Always {α : Type} (R : BuildState → BuildState → Prop) (m : Build α) : Prop :=
  ∀ b : BuildState, R b (m.run b).2

theorem Respects.imp {R S : BuildState → BuildState → Prop} {m : Build α} (h : Respects R m)
    (hRS : ∀ {b b'}, R b b' → S b b') : Respects S m :=
  fun _ _ _ run => hRS (h run)

theorem Always.imp {R S : BuildState → BuildState → Prop} {m : Build α} (h : Always R m)
    (hRS : ∀ {b b'}, R b b' → S b b') : Always S m :=
  fun b => hRS (h b)

theorem Always.respects {R : BuildState → BuildState → Prop} {m : Build α} (h : Always R m) :
    Respects R m := by
  intro b a b' run
  have hb := h b
  rw [run] at hb
  exact hb

theorem always_modify {R : BuildState → BuildState → Prop} {f : BuildState → BuildState}
    (h : ∀ b, R b (f b)) : Always R (modify f : Build Unit) := h

/-- Where a step leaves the state as it was when it fails, the runs that succeed decide. -/
theorem Respects.always {R : BuildState → BuildState → Prop} {m : Build α} (h : Respects R m)
    (hR : ∀ b, R b b) (hm : ∀ b, m.Whole b) : Always R m := by
  intro b
  rcases hm b with ⟨a, b', run⟩ | hstill
  · have hb := h run
    rw [Gives] at run
    rwa [run]
  · rw [hstill]
    exact hR b

/-- A property of steps that a whole program has if its parts have it. -/
structure Closed (P : {α : Type} → Build α → Prop) : Prop where
  pure : ∀ {α : Type} (x : α), P (pure x : Build α)
  bind : ∀ {α β : Type} {m : Build α} {f : α → Build β}, P m → (∀ a, P (f a)) → P (m >>= f)
  get : P (get : Build BuildState)
  lift : ∀ {α : Type} (x : Except BuildError α), P (Build.lift x)

namespace Closed

variable {P : {α : Type} → Build α → Prop}

theorem forM (hP : Closed P) {f : α → Build Unit} :
    ∀ {xs : List α}, (∀ x ∈ xs, P (f x)) → P (forM xs f)
  | [], _ => hP.pure _
  | x :: xs, h => by
      rw [List.forM_cons]
      exact hP.bind (h x List.mem_cons_self) fun _ =>
        hP.forM fun y hy => h y (List.mem_cons_of_mem _ hy)

theorem record (hP : Closed P) (C : String) : P (record C) := hP.bind hP.get fun _ => hP.lift _

theorem entity (hP : Closed P) (C : String) : P (entity C) := hP.bind hP.get fun _ => hP.lift _

end Closed

/-- A relation that holds along a whole program if every step respects it. -/
structure Chained (R : BuildState → BuildState → Prop) : Prop where
  refl : ∀ b, R b b
  trans : ∀ {b₁ b₂ b₃}, R b₁ b₂ → R b₂ b₃ → R b₁ b₃

namespace Chained

variable {R : BuildState → BuildState → Prop}

theorem respects (hR : Chained R) : Closed (fun m => Respects R m) where
  pure := by
    intro α x b a b' h
    obtain ⟨-, rfl⟩ := gives_pure.mp h
    exact hR.refl _
  bind := by
    intro α β m f hm hf b c b' h
    obtain ⟨a, b₁, first, rest⟩ := gives_bind.mp h
    exact hR.trans (hm first) (hf a rest)
  get := by
    intro b a b' h
    obtain ⟨-, rfl⟩ := gives_get.mp h
    exact hR.refl _
  lift := by
    intro α x b a b' h
    obtain ⟨-, rfl⟩ := gives_lift.mp h
    exact hR.refl _

/-- A program goes on from where its first step ends, if that succeeds. -/
theorem run_bind (hR : Chained R) {m : Build α} {f : α → Build β} {b : BuildState}
    (hm : R b (m.run b).2) (hf : ∀ a b₁, m.Gives b a b₁ → R b₁ ((f a).run b₁).2) :
    R b ((m >>= f).run b).2 := by
  rw [Build.run_bind]
  cases hrun : m.run b with
  | mk x b₁ =>
    rw [hrun] at hm
    cases x with
    | ok a => exact hR.trans hm (hf a b₁ hrun)
    | error e => exact hm

theorem lift_bind (hR : Chained R) {x : Except BuildError α} {f : α → Build β} {b : BuildState}
    (hf : ∀ a, x = .ok a → R b ((f a).run b).2) : R b ((lift x >>= f).run b).2 := by
  cases x with
  | ok a => exact hf a rfl
  | error e => exact hR.refl b

theorem get_bind (_ : Chained R) {f : BuildState → Build β} {b : BuildState}
    (hf : R b ((f b).run b).2) : R b (((get : Build BuildState) >>= f).run b).2 := hf

theorem record_bind (hR : Chained R) {C : String} {f : ClassRecord → Build β} {b : BuildState}
    (hf : ∀ c, b.registry.class? C = some c → R b ((f c).run b).2) :
    R b ((record C >>= f).run b).2 :=
  hR.lift_bind (x := b.registry.record C) fun c hc => hf c (record_eq_ok.mp hc)

theorem entity_bind (hR : Chained R) {C : String} {f : Entity → Build β} {b : BuildState}
    (hf : ∀ e, b.schema.entity? C = some e → R b ((f e).run b).2) :
    R b ((entity C >>= f).run b).2 :=
  hR.lift_bind (x := b.schema.entity C) fun e he => hf e (entity_eq_ok.mp he)

/-- A step that succeeds or fails on the spot. -/
theorem run_whole (hR : Chained R) {m : Build α} {b : BuildState} (hm : m.Whole b)
    (hgives : ∀ a b', m.Gives b a b' → R b b') : R b (m.run b).2 := by
  rcases hm with ⟨a, b', run⟩ | hstill
  · rw [Gives] at run
    rw [run]
    exact hgives a b' run
  · rw [hstill]
    exact hR.refl b

theorem always (hR : Chained R) : Closed (fun m => Always R m) where
  pure := fun _ b => hR.refl b
  bind := fun hm hf b => hR.run_bind (hm b) fun a b₁ _ => hf a b₁
  get := hR.refl
  lift := fun x b => by cases x <;> exact hR.refl b

end Chained

end Build

end FeatureSynth
