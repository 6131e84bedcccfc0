/-
# Steps that cannot fail

A build fails for many causes, and most of them speak of a state that a build never gets
into.  To say so takes more than a triple: that a step succeeds is a claim of its own.
`Ensures` makes it.  From a state a step ends in a result and a state with a given
property, and the one thing that may come between is a request to stop.  Such a request is not
made by a build: where there is none and will be none, a build is not stopped.

The rules follow the program, as those of `Gives` do.  Where a step reads, its premise says
that what is read is there; where a step is lifted from a computation, that the computation
succeeds.
-/
import FeatureSynth.Proofs.Build.Run

namespace FeatureSynth

namespace Build

variable {α β : Type} {b b' : BuildState}

/-- No request to stop comes up. -/
def Calm (b b' : BuildState) : Prop := b.interrupt = .never → b'.interrupt = .never

theorem Calm.of_eq (h : b'.interrupt = b.interrupt) : Calm b b' := fun hb => h.trans hb

/-- From a state a step is stopped, because of a request to stop, or succeeds with a result and a
state as given. -/
def Ensures (m : Build α) (b : BuildState) (Q : α → BuildState → Prop) : Prop :=
  (b.interrupt ≠ .never ∧ (m.run b).1 = .error .interrupted) ∨
    ∃ a b', m.Gives b a b' ∧ Calm b b' ∧ Q a b'

namespace Ensures

variable {m : Build α} {Q Q' : α → BuildState → Prop} {R : β → BuildState → Prop}

theorem of_gives {a : α} (h : m.Gives b a b') (hcalm : b'.interrupt = b.interrupt) (hQ : Q a b') :
    m.Ensures b Q :=
  .inr ⟨a, b', h, .of_eq hcalm, hQ⟩

theorem mono (h : m.Ensures b Q) (hQ : ∀ a b', m.Gives b a b' → Q a b' → Q' a b') :
    m.Ensures b Q' := by
  rcases h with hstop | ⟨a, b', run, hcalm, ha⟩
  · exact .inl hstop
  · exact .inr ⟨a, b', run, hcalm, hQ a b' run ha⟩

theorem ret {a : α} (h : Q a b) : (pure a : Build α).Ensures b Q :=
  .of_gives (gives_pure.mpr ⟨rfl, rfl⟩) rfl h

theorem bind {f : α → Build β} (h : m.Ensures b fun a b₁ => (f a).Ensures b₁ R) :
    (m >>= f).Ensures b R := by
  rcases h with ⟨hasked, hstop⟩ | ⟨a, b₁, first, hcalm, ⟨hasked, hstop⟩ | ⟨c, b', rest, hcalm', hR⟩⟩
  · refine .inl ⟨hasked, ?_⟩
    rw [run_bind]
    cases hrun : m.run b with
    | mk x b₁ =>
      rw [hrun] at hstop
      dsimp only at hstop
      rw [hstop]
  · refine .inl ⟨hasked ∘ hcalm, ?_⟩
    rw [Gives] at first
    rw [run_bind, first]
    exact hstop
  · exact .inr ⟨c, b', gives_bind.mpr ⟨a, b₁, first, rest⟩, hcalm' ∘ hcalm, hR⟩

/-- The two steps of a program, one after the other. -/
theorem bind_of {f : α → Build β} (h : m.Ensures b Q)
    (hf : ∀ a b₁, m.Gives b a b₁ → Q a b₁ → (f a).Ensures b₁ R) : (m >>= f).Ensures b R :=
  .bind (h.mono hf)

theorem get_bind {f : BuildState → Build β} (h : (f b).Ensures b R) :
    ((get : Build BuildState) >>= f).Ensures b R := h

theorem change {f : BuildState → BuildState} {Q : Unit → BuildState → Prop}
    (hcalm : (f b).interrupt = b.interrupt) (h : Q () (f b)) :
    (modify f : Build Unit).Ensures b Q :=
  .of_gives (gives_modify.mpr rfl) hcalm h

theorem change_bind {f : BuildState → BuildState} {g : Unit → Build β}
    (hcalm : (f b).interrupt = b.interrupt) (h : (g ()).Ensures (f b) R) :
    ((modify f : Build Unit) >>= g).Ensures b R :=
  .bind (.change hcalm h)

theorem lift_bind {x : Except BuildError α} {f : α → Build β} {a : α} (hx : x = .ok a)
    (h : (f a).Ensures b R) : (lift x >>= f).Ensures b R := by
  subst hx
  exact h

theorem record_bind {C : String} {f : ClassRecord → Build β} {c : ClassRecord}
    (hc : b.registry.class? C = some c) (h : (f c).Ensures b R) : (record C >>= f).Ensures b R :=
  lift_bind (x := b.registry.record C) (record_eq_ok.mpr hc) h

theorem entity_bind {C : String} {f : Entity → Build β} {e : Entity}
    (he : b.schema.entity? C = some e) (h : (f e).Ensures b R) : (entity C >>= f).Ensures b R :=
  lift_bind (x := b.schema.entity C) (entity_eq_ok.mpr he) h

theorem edit {C : String} {change : Entity → Except BuildError Entity} {e e' : Entity}
    {Q : Unit → BuildState → Prop} (he : b.schema.entity? C = some e) (hchange : change e = .ok e')
    (h : Q () { b with schema := b.schema.setEntity C e' }) : (edit C change).Ensures b Q :=
  .of_gives (gives_edit.mpr ⟨e, e', he, hchange, rfl⟩) rfl h

theorem freeName_bind {C stem : String} {make : Naming} {names : NameSource} {e : Entity}
    {f : String → Build β} (hmake : make b.names b.space = .ok (stem, names))
    (he : b.schema.entity? C = some e)
    (h : (f (e.freeName stem)).Ensures { b with names } R) : (freeName C make >>= f).Ensures b R :=
  .bind (.of_gives (gives_freeName.mpr ⟨stem, names, e, hmake, he, rfl, rfl⟩) rfl h)

/-- The one step that may be stopped. -/
theorem checkInterrupt_bind {f : Unit → Build β}
    (h : (f ()).Ensures { b with interrupt := b.interrupt.look.2 } R) :
    (checkInterrupt >>= f).Ensures b R := by
  cases hlook : b.interrupt.look.1 with
  | true =>
    refine .bind (.inl ⟨fun hnever => ?_, ?_⟩)
    · rw [hnever] at hlook
      cases hlook
    · simp only [checkInterrupt]
      rw [run_bind]
      show ((if b.interrupt.look.1 = true then throw .interrupted else pure () : Build Unit).run
        _).1 = _
      rw [hlook]
      rfl
  | false =>
    refine .bind (.inr ⟨(), _, gives_checkInterrupt.mpr ⟨hlook, rfl⟩, fun hnever => ?_, h⟩)
    dsimp only
    rw [hnever]
    rfl

/-- What every round of a loop ensures again, the loop ensures. -/
theorem forM {f : α → Build Unit} {I : BuildState → Prop} : ∀ {xs : List α} {b : BuildState},
    (∀ x ∈ xs, ∀ b, I b → (f x).Ensures b fun _ => I) → I b → (forM xs f).Ensures b fun _ => I
  | [], _, _, hb => .ret hb
  | x :: xs, b, h, hb => by
      rw [List.forM_cons]
      exact .bind_of (h x List.mem_cons_self b hb) fun _ b₁ _ hb₁ =>
        forM (fun y hy => h y (List.mem_cons_of_mem _ hy)) hb₁

end Ensures

end Build

end FeatureSynth
