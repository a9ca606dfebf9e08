import B33.Proofs.Bus.Action

/-!
# The queue of keys

The keys wait in a queue. The host puts keys at its end, a read of one address takes the first, and
the host or a zero at another address drops them all. So the keys handed out since they were last
dropped, and behind them those that wait, are the keys queued since then.
-/
namespace B33.Bus

/-- What becomes of a key, or of all keys. -/
inductive KeyEvent where
  | queued (key : UInt8)
  | handed (key : UInt8)
  | dropped
  deriving DecidableEq

namespace KeyEvent

def queued? : KeyEvent → Option UInt8
  | queued key => some key
  | handed _ | dropped => none

def handed? : KeyEvent → Option UInt8
  | handed key => some key
  | queued _ | dropped => none

end KeyEvent

/-- What an action does with keys. A read hands out what it answers with, if any key waits. -/
def Action.keyEvents (b : Bus) : Action → List KeyEvent
  | press key => [.queued key]
  | typeText s => s.toUTF8.data.toList.map fun byte =>
      .queued (if byte = 0x0A then 0x0D else byte)
  | clearKeys => [.dropped]
  | read address bypass =>
    if address = keyAddress ∧ bypass = false ∧ b.keys ≠ [] then [.handed (b.peek address).1] else []
  | write address value => if address = keyboardBase ∧ value = 0 then [.dropped] else []

/-- What a row of actions does with keys. -/
def keyEvents (b : Bus) : List Action → List KeyEvent
  | [] => []
  | action :: later => action.keyEvents b ++ (action.after b).keyEvents later

/-- The events since the keys were last dropped. -/
def sinceDropped (es : List KeyEvent) : List KeyEvent :=
  (es.reverse.takeWhile (· ≠ .dropped)).reverse

/-- How events change the queue: the keys that wait before them, and those that wait after. -/
inductive QueueRun : List UInt8 → List KeyEvent → List UInt8 → Prop
  | nil {keys : List UInt8} : QueueRun keys [] keys
  | queued {keys keys' : List UInt8} {key : UInt8} {es : List KeyEvent} :
      QueueRun (keys ++ [key]) es keys' → QueueRun keys (.queued key :: es) keys'
  | handed {keys keys' : List UInt8} {key : UInt8} {es : List KeyEvent} :
      QueueRun keys es keys' → QueueRun (key :: keys) (.handed key :: es) keys'
  | dropped {keys keys' : List UInt8} {es : List KeyEvent} :
      QueueRun [] es keys' → QueueRun keys (.dropped :: es) keys'

/-- The keys handed out since the last drop, and then those that wait, are the keys queued since. -/
def Balanced (es : List KeyEvent) (keys : List UInt8) : Prop :=
  (sinceDropped es).filterMap KeyEvent.handed? ++ keys =
    (sinceDropped es).filterMap KeyEvent.queued?

theorem sinceDropped_append {es : List KeyEvent} {e : KeyEvent} (h : e ≠ .dropped) :
    sinceDropped (es ++ [e]) = sinceDropped es ++ [e] := by
  rw [sinceDropped, List.reverse_append, List.reverse_singleton, List.singleton_append,
    List.takeWhile_cons_of_pos (by simpa using h), List.reverse_cons, sinceDropped]

theorem sinceDropped_dropped (es : List KeyEvent) : sinceDropped (es ++ [.dropped]) = [] := by
  rw [sinceDropped, List.reverse_append]
  rfl

namespace Balanced
variable {es : List KeyEvent} {keys : List UInt8} {key : UInt8}

theorem queued (h : Balanced es keys) : Balanced (es ++ [.queued key]) (keys ++ [key]) := by
  rw [Balanced, sinceDropped_append (e := .queued key) nofun, List.filterMap_append,
    List.filterMap_append]
  show (_ ++ []) ++ (keys ++ [key]) = _ ++ [key]
  rw [List.append_nil, ← List.append_assoc, h]

theorem handed (h : Balanced es (key :: keys)) : Balanced (es ++ [.handed key]) keys := by
  rw [Balanced, sinceDropped_append (e := .handed key) nofun, List.filterMap_append,
    List.filterMap_append]
  show (_ ++ [key]) ++ keys = _ ++ []
  rw [List.append_assoc, List.append_nil]
  exact h

theorem dropped : Balanced (es ++ [.dropped]) [] := by
  rw [Balanced, sinceDropped_dropped]
  rfl

end Balanced

namespace QueueRun
variable {keys keys' : List UInt8} {es : List KeyEvent}

theorem append {later : List KeyEvent} {last : List UInt8} (h : QueueRun keys es keys')
    (hlater : QueueRun keys' later last) : QueueRun keys (es ++ later) last := by
  induction h with
  | nil => exact hlater
  | queued _ ih => exact .queued (ih hlater)
  | handed _ ih => exact .handed (ih hlater)
  | dropped _ ih => exact .dropped (ih hlater)

theorem queued_all (more : List UInt8) :
    QueueRun keys (more.map .queued) (keys ++ more) := by
  induction more generalizing keys with
  | nil =>
      rw [List.append_nil]
      exact .nil
  | cons key more ih =>
      rw [List.append_cons]
      exact .queued ih

theorem eq_of_nil (h : QueueRun keys [] keys') : keys' = keys := by
  cases h
  rfl

theorem balanced {before : List KeyEvent} (h : QueueRun keys es keys')
    (hbefore : Balanced before keys) : Balanced (before ++ es) keys' := by
  induction h generalizing before with
  | nil => rwa [List.append_nil]
  | queued _ ih =>
      have hnext := ih hbefore.queued
      rwa [List.append_assoc] at hnext
  | handed _ ih =>
      have hnext := ih hbefore.handed
      rwa [List.append_assoc] at hnext
  | dropped _ ih =>
      have hempty : Balanced (before ++ [.dropped]) [] := .dropped
      have hnext := ih hempty
      rwa [List.append_assoc] at hnext

end QueueRun

section
variable {b : Bus} (h : b.IsStandard)
include h

theorem IsStandard.inspect_keyboardBase :
    b.inspect keyboardBase = UInt8.ofNat (min b.keys.length 255) := by
  cases h.answers keyboardBase with
  | memory hp | screen _ hp => exact (hp.2.1 rfl).elim
  | sound _ ha => exact absurd ha (by decide)
  | keyboard _ hfind =>
      rw [inspect_of_find? hfind]
      rfl

theorem IsStandard.inspect_keyAddress : b.inspect keyAddress = b.keys.headD 0 := by
  cases h.answers keyAddress with
  | memory hp | screen _ hp => exact (hp.2.2 rfl).elim
  | sound _ ha => exact absurd ha (by decide)
  | keyboard _ hfind =>
      rw [inspect_of_find? hfind]
      rfl

/-- The keys wait in a queue, whatever is done. -/
theorem IsStandard.queueRun_action (action : Action) :
    QueueRun b.keys (action.keyEvents b) (action.after b).keys := by
  cases action with
  | press key => exact .queued .nil
  | typeText s =>
      have htyped : QueueRun b.keys ((s.toUTF8.data.toList.map keyOf).map .queued)
          (b.keys ++ s.toUTF8.data.toList.map keyOf) := .queued_all _
      rw [List.map_map] at htyped
      exact htyped
  | clearKeys => exact .dropped .nil
  | read address bypass =>
      cases bypass with
      | true =>
          rw [Action.keyEvents, if_neg (by simp)]
          exact .nil
      | false =>
          show QueueRun b.keys _ (b.peek address).2.keys
          rw [Action.keyEvents, h.peek_eq]
          by_cases ha : address = keyAddress
          · rw [ha, if_pos rfl]
            dsimp only
            rw [h.inspect_keyAddress]
            cases b.keys with
            | nil => exact .nil
            | cons key keys =>
                rw [if_pos ⟨rfl, rfl, nofun⟩]
                exact .handed .nil
          · rw [if_neg ha, if_neg fun h => ha h.1]
            exact .nil
  | write address value =>
      show QueueRun b.keys _ (b.poke address value).keys
      rw [h.keys_poke, Action.keyEvents]
      split_ifs
      · exact .dropped .nil
      · exact .nil

theorem IsStandard.queueRun_actions (history : List Action) :
    QueueRun b.keys (b.keyEvents history) (b.afterActions history).keys := by
  induction history generalizing b with
  | nil => exact .nil
  | cons action history ih => exact (h.queueRun_action action).append (ih (h.action action))

/-- What does nothing with a key leaves the queue. -/
theorem IsStandard.keys_of_no_event {action : Action} (hnone : action.keyEvents b = []) :
    (action.after b).keys = b.keys := by
  have hrun := h.queueRun_action action
  rw [hnone] at hrun
  exact hrun.eq_of_nil

end

/-- No key is lost, handed out twice or out of turn, in whatever order the host and the bus act. The
count is right as far as it goes, and nothing else touches the queue. -/
theorem keys_in_turn (history : List Action) :
    ((sinceDropped (standard.keyEvents history)).filterMap KeyEvent.handed? ++
        (standard.afterActions history).keys =
      (sinceDropped (standard.keyEvents history)).filterMap KeyEvent.queued?) ∧
    (∀ bypass, ∃ value,
      (Action.read keyboardBase bypass).answer? (standard.afterActions history) =
        some (keyboardBase, value) ∧
      value.toNat = min (standard.afterActions history).keys.length 255) ∧
    (∀ action : Action, action.keyEvents (standard.afterActions history) = [] →
      (action.after (standard.afterActions history)).keys = (standard.afterActions history).keys) ∧
    (∀ (access : Access) (b : Bus), access.after b = b.afterActions access.actions ∧
      access.answer b = b.answers access.actions) := by
  have hstandard := isStandard_standard.actions history
  refine ⟨?_, ?_, fun _ => hstandard.keys_of_no_event,
    fun access b => ⟨access.after_eq b, access.answer_eq b⟩⟩
  · have hempty : Balanced [] standard.keys := rfl
    exact (isStandard_standard.queueRun_actions history).balanced hempty
  · intro bypass
    refine ⟨_, rfl, ?_⟩
    rw [peek_fst, ite_self, hstandard.inspect_keyboardBase, UInt8.toNat_ofNat']
    exact Nat.mod_eq_of_lt (by omega)

/-- A zero at the address where keys are handed out drops none. -/
theorem keys_kept_on_write_to_key_address :
    (Action.write keyAddress 0).keyEvents (standard.afterActions [.typeText "a\n"]) = [] ∧
      ((Action.write keyAddress 0).after (standard.afterActions [.typeText "a\n"])).keys =
        (standard.afterActions [.typeText "a\n"]).keys :=
  ⟨rfl, (keys_in_turn [.typeText "a\n"]).2.2.1 (.write keyAddress 0) rfl⟩

end B33.Bus
