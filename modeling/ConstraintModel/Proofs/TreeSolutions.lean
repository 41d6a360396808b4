import ConstraintModel.Proofs.Grounded
import ConstraintModel.Proofs.TreeMeaning

namespace ConstraintModel

namespace Supported

open ConstraintModel.Expr (Tame)

variable {caps : Capabilities} {σ : Store} {cs : List Expr}

/-- A constraint is rendered by what remains of it and the definitions that are
left behind. -/
theorem expr_renders (caps : Capabilities) {e : Expr} (he : e.isBool) (hp : e.Proper σ.Owns)
    (hex : ∃ s, s.Within σ ∧ e.Tame s) (n : Nat) :
    Defining.Sat False (do return (← expr caps n .top e).conjuncts) σ fun fs N τ =>
      Renders .tame .tame σ [e] (fs ++ N) τ ∧ ∀ f ∈ fs ++ N, f.isBool := by
  let ι := {s : Assignment // s.Within σ ∧ e.Tame s}
  have : Nonempty ι := hex.elim fun s hs => ⟨s, hs⟩
  have hready (s : ι) : Ready (World.pin σ e hp s) e :=
    ⟨hp, Condition.pin (P := .tame) hp s.2.1 s.2.2⟩
  have hruns (s : ι) := (meanings caps n).expr .top (World.pin σ e hp s) e (hready s) (.inl ((hready s).defined he))
    ⟨s, World.admits_pin_self hp s.2.1⟩
  refine (Defining.Sat.forall hruns).bind fun e' N υ _ hruns => .pure ⟨?_, ?_⟩
  · rw [List.append_nil]
    refine .of_pin hp hex fun s hs htame => ?_
    obtain ⟨w', rfl, hN, hr, htrusted, hfaithful⟩ := hruns ⟨s, hs, htame⟩
    refine ⟨w', rfl, hN, hr, ?_, fun t ht => ⟨fun f hf => ?_, ?_⟩, fun t ht hw hall d hd => ?_⟩
    · exact e'.forall_conjuncts (fun as hp a ha => hp.arg ha) hfaithful.stands.proper
    · exact e'.forall_conjuncts (fun as h a ha => h.arg ha) (hfaithful.tame t ht) f hf
    · rw [Expr.holds_conjuncts, hfaithful.stands.holds_iff ht]
    · exact htrusted.2 t ht hw hall d hd
  · obtain ⟨s, hs, htame⟩ := hex
    obtain ⟨w', -, -, -, htrusted, hfaithful⟩ := hruns ⟨s, hs, htame⟩
    rw [List.append_nil]
    refine List.forall_mem_append.2 ⟨fun f hf => ?_, htrusted.1⟩
    exact (e'.forall_conjuncts (p := fun f => f.isBool ∧ f.Proper w'.store.Owns)
      (fun as h a ha => ⟨(Expr.proper_and.1 h.2).1 a ha, h.2.arg ha⟩)
      ⟨hfaithful.stands.isBool he, hfaithful.stands.proper⟩ f hf).1

/-- The definitions that are left behind are rendered in the next rounds. -/
theorem examine_renders {n : Nat} (hcs : ∀ c ∈ cs, c.isBool ∧ c.Proper σ.Owns)
    (hex : ∃ s, s.Within σ ∧ ∀ c ∈ cs, c.Tame s) : (examine caps n cs).Sat False σ fun fs τ =>
      Renders .tame .tame σ cs fs τ ∧ ∀ f ∈ fs, f.isBool := by
  induction n generalizing σ cs with
  | zero =>
    cases cs with
    | nil => exact .pure ⟨.nil, by simp⟩
    | cons c cs => exact .throw False.elim
  | succ n ih =>
    cases cs with
    | nil => exact .pure ⟨.nil, by simp⟩
    | cons c cs =>
      rw [examine]
      · have hparts : ∀ e ∈ topLevel (c :: cs), e.isBool ∧ e.Proper σ.Owns := by
          rw [topLevel, List.forall_mem_flatMap]
          exact fun e he => e.forall_conjuncts (fun as h a ha => ⟨(Expr.proper_and.1 h.2).1 a ha, h.2.arg ha⟩)
            (hcs e he)
        obtain ⟨s, hs, htame⟩ := hex
        have hruns := Defining.sat_mapM_renders (fun e he => (hparts e he).2)
          ⟨s, hs, Condition.forall_topLevel (P := .tame) htame⟩
          fun τ hτ e he hp hex => expr_renders caps (hparts e he).1 hp hex (depth e)
        refine hruns.collect.bind fun p τ _ hp => ?_
        obtain ⟨parts, N⟩ := p
        obtain ⟨hrendered, hb⟩ := hp
        obtain ⟨t, ht, -, hnew, -⟩ := hrendered.extend s hs (Condition.forall_topLevel htame)
        obtain ⟨-, hN⟩ := List.forall_mem_append.1 hnew
        obtain ⟨hbparts, hbN⟩ := List.forall_mem_append.1 hb
        refine (ih (fun d hd => ⟨hbN d hd, hrendered.proper d (List.mem_append_right _ hd)⟩)
          ⟨t, ht, hN⟩).bind fun fs υ _ hfs => .pure ⟨.of_split ?_, ?_⟩
        · exact hrendered.trans hfs.1 fun e he => (hparts e he).2
        · exact List.forall_mem_append.2 ⟨hbparts, hfs.2⟩
      · simp

end Supported

/-- Replacing what the backend does not take keeps the solutions, and the
auxiliary variables are determined by the others. -/
theorem decomposeTree_renders {caps : Capabilities} {w : World} (hb : ∀ e ∈ w.constraints, e.isBool)
    (hex : ∃ s, s.Within w.store ∧ ∀ e ∈ w.constraints, e.Tame s) :
    (decomposeTree caps w.constraints).Sat False w.store fun fs τ =>
      Renders .tame .tame w.store w.constraints fs τ ∧ ∀ f ∈ fs, f.isBool :=
  Supported.examine_renders (fun e he => ⟨hb e he, w.proper e he⟩) hex

end ConstraintModel
