/-
# Remembered answers are answers

A class record remembers what it answered, under signatures.  A positive answer
stays right as long as the space does not change: the formula of the rule is one
the record knows, by that very field.  A negative answer may be out of date, and
so may be the short ways out; whoever asks has to look the formula up once more.
-/
import FeatureSynth.Proofs.Registry.Index
import FeatureSynth.Proofs.Rule.Signature

namespace FeatureSynth

namespace ClassRecord

/-- A name answers a rule in a space: it is the one the record knows the formula of the rule by. -/
def Answers (c : ClassRecord) (s : Space) (r : Rule) (name : String) : Prop :=
  ∃ φ, s.formula r = .ok φ ∧ c.field? φ = some name

/-- What is remembered for a signature answers every rule that has it. -/
def MemoSound (s : Space) (c : ClassRecord) : Prop :=
  ∀ σ name, (σ, some name) ∈ c.memo → ∀ r : Rule, r.signature = σ → c.Answers s r name

variable {s : Space} {c c' : ClassRecord} {r : Rule}

/-- A record that was collected has answered nothing yet. -/
theorem collect_unasked (catalogue : Catalogue) (schema : Schema) (e : Entity) :
    (collect catalogue schema e).memo = [] ∧ (collect catalogue schema e).matched = [] := by
  have hfields (fields : List Field) (c : ClassRecord) :
      (fields.foldl (addField e) c).memo = c.memo ∧
        (fields.foldl (addField e) c).matched = c.matched := by
    induction fields generalizing c with
    | nil => exact ⟨rfl, rfl⟩
    | cons f fs ih =>
      obtain ⟨hmemo, hmatched⟩ := ih (addField e c f)
      rw [List.foldl_cons, hmemo, hmatched]
      unfold addField addDerived addMember
      repeat' split
      all_goals exact ⟨rfl, rfl⟩
  have hblocks (blocks : List Block) (c : ClassRecord) :
      (blocks.foldl addBlock c).memo = c.memo ∧
        (blocks.foldl addBlock c).matched = c.matched := by
    induction blocks generalizing c with
    | nil => exact ⟨rfl, rfl⟩
    | cons b bs ih =>
      obtain ⟨hmemo, hmatched⟩ := ih (c.addBlock b)
      rw [List.foldl_cons, hmemo, hmatched]
      unfold addBlock
      split <;> exact ⟨rfl, rfl⟩
  rw [collect_eq, (hblocks _ _).1, (hblocks _ _).2, (hfields _ _).1, (hfields _ _).2]
  exact ⟨rfl, rfl⟩

theorem memoSound_collect (catalogue : Catalogue) (schema : Schema) (e : Entity) :
    MemoSound s (collect catalogue schema e) := by
  intro σ name h
  rw [(collect_unasked catalogue schema e).1] at h
  cases h

/-- Known formulas stay known, and less is remembered. -/
theorem MemoSound.mono (h : MemoSound s c)
    (hfields : ∀ key n, c.fields.lookup key = some n → c'.fields.lookup key = some n)
    (hmemo : ∀ entry ∈ c'.memo, entry ∈ c.memo) : MemoSound s c' := by
  intro σ name hmem r hr
  obtain ⟨φ, hφ, hn⟩ := h σ name (hmemo _ hmem) r hr
  exact ⟨φ, hφ, hfields _ _ hn⟩

theorem memo_noteMatch (c : ClassRecord) (name : String) :
    ∀ entry ∈ (c.noteMatch name).memo, entry ∈ c.memo := by
  unfold noteMatch
  split
  · exact fun _ h => h
  · dsimp only
    split
    · exact fun _ h => (List.mem_filter.mp h).1
    · exact fun _ h => h

/-- A remembered answer of a rule answers it. -/
theorem answers_of_remembered {name : String} (h : MemoSound s c)
    (hr : c.remembered? r.signature = some (some name)) : c.Answers s r name := by
  obtain ⟨⟨σ, answer⟩, hfind, hanswer⟩ := Option.map_eq_some_iff.mp hr
  obtain rfl : answer = some name := hanswer
  have heq : σ.compare r.signature = .eq := by simpa using List.find?_some hfind
  exact h σ name (List.mem_of_find?_eq_some hfind) r ((Signature.compare_eq_iff _ _).mp heq).symm

theorem memoSound_remember {answer : Option String} (h : MemoSound s c)
    (hr : ∀ name, answer = some name → c.Answers s r name) :
    MemoSound s (c.remember r.signature answer) := by
  intro σ name hmem r' hr'
  rcases List.mem_cons.mp hmem with heq | hmem
  · obtain ⟨rfl, rfl⟩ := (Prod.mk.injEq ..).mp heq
    obtain ⟨φ, hφ, hn⟩ := hr name rfl
    exact ⟨φ, (s.formula_congr hr').trans hφ, hn⟩
  · exact h σ name hmem r' hr'

/-- How a record answers a rule: at once, from what it remembers, or after it looked the formula
up. -/
inductive Lookup (s : Space) (c : ClassRecord) (r : Rule) : Option String → ClassRecord → Prop
  | empty (count : c.derivedCount = 0) : Lookup s c r none c
  | remembered {answer} (known : c.remembered? r.signature = some answer) : Lookup s c r answer c
  | exhausted (all : c.matched.length = c.derivedCount) : Lookup s c r none c
  | found {φ name} (formula : s.formula r = .ok φ) (field : c.field? φ = some name) :
      Lookup s c r (some name) ((c.noteMatch name).remember r.signature (some name))
  | missed {φ} (formula : s.formula r = .ok φ) (field : c.field? φ = none) :
      Lookup s c r none (c.remember r.signature none)

theorem lookup_of_lookupRule {answer : Option String}
    (h : c.lookupRule s r = .ok (answer, c')) : Lookup s c r answer c' := by
  unfold lookupRule at h
  split at h
  · rename_i hcount
    cases h
    exact .empty hcount
  · split at h
    · rename_i remembered hknown
      cases h
      exact .remembered hknown
    · split at h
      · rename_i hall
        cases h
        exact .exhausted hall
      · split at h
        · cases h
        · rename_i φ hφ
          split at h
          · rename_i name hname
            cases h
            exact .found hφ hname
          · rename_i hnone
            cases h
            exact .missed hφ hnone

/-- A lookup that finds a field finds one that answers the rule, and remembers nothing wrong. -/
theorem lookupRule_sound {answer : Option String} (h : MemoSound s c)
    (hlookup : c.lookupRule s r = .ok (answer, c')) :
    MemoSound s c' ∧ ∀ name, answer = some name → c.Answers s r name := by
  cases lookup_of_lookupRule hlookup with
  | empty | exhausted => exact ⟨h, nofun⟩
  | remembered hknown =>
    refine ⟨h, ?_⟩
    rintro name rfl
    exact answers_of_remembered h hknown
  | @found φ name hφ hname =>
    have hfields := (noteMatch_keeps c name).2.1
    have hnoted : MemoSound s (c.noteMatch name) :=
      h.mono (fun key n hn => by rwa [hfields]) (memo_noteMatch c name)
    refine ⟨memoSound_remember hnoted ?_, ?_⟩
    · rintro _ ⟨⟩
      exact ⟨φ, hφ, by rw [field?, hfields]; exact hname⟩
    · rintro _ ⟨⟩
      exact ⟨φ, hφ, hname⟩
  | missed => exact ⟨memoSound_remember h nofun, nofun⟩

theorem memo_registerDerived {f : Field} (h : c.registerDerived f = .ok c') :
    ∀ entry ∈ c'.memo, entry ∈ c.memo := by
  unfold registerDerived at h
  split at h
  · cases h
  · split at h
    · cases h
    · cases h
      exact fun _ hmem => (List.mem_filter.mp hmem).1

end ClassRecord

end FeatureSynth
