import Progression.Proofs.Directing
import Progression.Proofs.Unfolding

/-!
Histories that are played again. The core changes the world by nothing that is not in the history,
so the world at any entry is found by playing the entries before it (`Host.replay`), and every
answer must then be what the game tells at its entry (`Host.Recounts`). Both hold of what work adds.
-/

namespace Progression

variable {σ : Type}

namespace Host

variable (h : Host σ)

/-- The world that an entry leaves. -/
def after (w : σ) (e : Entry) : σ :=
  match e.event with
  | .asked q _ => (h.ask q e.time w).state
  | .did c _ _ => (h.start c e.time w).state
  | .ended c _ => (h.finish c e.time w).state
  | .began _ => w
  | .round _ _ => w

/-- The world after entries, the first one first. -/
def replay (w : σ) (es : List Entry) : σ := es.foldl h.after w

/-- Every answer among the entries is what the game tells there. -/
def Recounts : σ → List Entry → Prop
  | _, [] => True
  | w, e :: es =>
    (∀ q x, e.event = .asked q x → h.tells ⟨e.time, w⟩ q = x) ∧ Recounts (h.after w e) es

/-- What is added from one session to another is its history, and leads to its world. -/
def Replays (s t : Session σ) : Prop :=
  ∃ es, s.Adds t es ∧ h.Recounts s.world es ∧ t.world = h.replay s.world es

variable {h} {w : σ} {es fs : List Entry}

theorem replay_append : h.replay w (es ++ fs) = h.replay (h.replay w es) fs := List.foldl_append

theorem recounts_append :
    h.Recounts w (es ++ fs) ↔ h.Recounts w es ∧ h.Recounts (h.replay w es) fs := by
  induction es generalizing w with
  | nil => exact ⟨fun h => ⟨trivial, h⟩, And.right⟩
  | cons e es ih =>
    rw [List.cons_append, Recounts, ih, Recounts, and_assoc]
    rfl

/-- What an answer in the middle of a history says. -/
theorem Recounts.tells {time : Nat} {q : Query} {x : q.Answer}
    (hw : h.Recounts w (es ++ ⟨time, .asked q x⟩ :: fs)) :
    h.tells ⟨time, h.replay w es⟩ q = x :=
  (recounts_append.1 hw).2.1 q x rfl

/-- Where looks change nothing that can be seen, nothing changes by looks at one time. -/
theorem Steady.replay_looks (hs : h.Steady) {time : Nat}
    (hes : ∀ e ∈ es, e.event.IsLook ∧ e.time = time) :
    h.tells ⟨time, h.replay w es⟩ = h.tells ⟨time, w⟩ := by
  induction es generalizing w with
  | nil => rfl
  | cons e es ih =>
    obtain ⟨hlook, rfl⟩ := hes e (by simp)
    have hrest := ih (w := h.after w e) fun e' he' => hes e' (by simp [he'])
    refine hrest.trans ?_
    cases hev : e.event with
    | asked q x =>
      have hafter : h.after w e = (h.ask q e.time w).state := by
        unfold after
        rw [hev]
      rw [hafter]
      funext q'
      exact hs q q' e.time w
    | _ => rw [hev] at hlook; exact hlook.elim

/-! ### What work adds -/

theorem Replays.refl (s : Session σ) : h.Replays s s := ⟨[], .refl s, trivial, rfl⟩

theorem Replays.trans {s t u : Session σ} (hst : h.Replays s t) (htu : h.Replays t u) :
    h.Replays s u := by
  obtain ⟨es, hes, hrecounts, hworld⟩ := hst
  obtain ⟨fs, hfs, hrecounts', hworld'⟩ := htu
  rw [hworld] at hrecounts' hworld'
  exact ⟨es ++ fs, hes.trans hfs, recounts_append.2 ⟨hrecounts, hrecounts'⟩,
    by rw [hworld', replay_append]⟩

/-- One more entry, which is no answer or a true one. -/
theorem Replays.single {s t : Session σ} {e : Entry} (ht : t.history = e :: s.history)
    (hworld : t.world = h.after s.world e)
    (he : ∀ q x, e.event = .asked q x → h.tells ⟨e.time, s.world⟩ q = x) : h.Replays s t :=
  ⟨[e], ht, ⟨he, trivial⟩, hworld⟩

theorem carries_replays (h : Host σ) : h.Carries h.Replays where
  refl := .refl
  trans := .trans
  asked s q := by
    refine .single (s.history_asked q _) (s.world_asked q _) ?_
    intro q' x hx
    cases hx
    rfl
  begun s c := .single (s.history_begun c _) (s.world_begun c _) nofun
  finished s c := .single (s.history_finished c _) (s.world_finished c _) nofun
  slept s length := ⟨[], .refl s, trivial, rfl⟩
  noted s stage := .single (s.history_note (.began stage)) rfl nofun

end Host
end Progression
