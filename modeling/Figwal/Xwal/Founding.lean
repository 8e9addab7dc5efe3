import Figwal.Xwal.Channels

/-!
# Creating a store

A new store has no nodes. The root gets its watermarks, the genesis record and a
patch in each reducible channel; the rebuild that follows writes them out, as far as
the disk takes them, and leaves a proper and clean store.
-/

namespace Figwal.Xwal

open Figwal.Lib Figwal.Disk

set_option autoImplicit false

variable {β σ : Type}

namespace Trunks

structure Founding (state : Trunks β σ) : Prop where
  sound : state.Sound
  main : state.main ∈ state.names
  index : state.index = []
  strays : state.strays = []
  plan : state.plan = none
  markers : state.unmarked = []
  numbered : Numbered (state.shown state.main "")
  blank : ∀ {name node}, name ∉ state.names ∨ node ≠ "" → (state.cells name node).Blank

section Create

variable {state next : Trunks β σ} {channels : List (Channel β σ)}

section

variable (founding : state.Founding)

include founding

theorem Founding.known {node : String} : state.index.Known node ↔ node = "" := by
  rw [Index.Known, founding.index]
  simp [Index.keys]

theorem Founding.appended {name : String} (listed : name ∈ state.names) {record : Record β}
    (asMain : name = state.main → record.mainLT = (state.shown name "").length + 1)
    (appended : Appended state next name "" record) : next.Founding := by
  have root := founding.known.mpr rfl
  refine ⟨appended.sound founding.sound, ?_, ?_, ?_, ?_, ?_, ?_, ?_⟩
  · rw [appended.main, appended.names]
    exact founding.main
  · rw [appended.index]
    exact founding.index
  · rw [appended.frame]
    exact founding.strays
  · rw [appended.frame]
    exact founding.plan
  · rw [appended.frame]
    exact founding.markers
  · rw [appended.main]
    by_cases same : state.main = name
    · rw [same, appended.shown_here founding.sound listed root]
      apply Numbered.append
      · rw [← same]
        exact founding.numbered
      · exact asMain same.symm
    · rw [appended.shown_elsewhere founding.sound founding.main root fun both => same both.1]
      exact founding.numbered
  · intro other node outside
    rw [appended.names] at outside
    have apart : ¬(other = name ∧ node = "") := by
      rintro ⟨rfl, rfl⟩
      rcases outside with unlisted | named
      · exact unlisted listed
      · exact named rfl
    rw [appended.elsewhere apart]
    exact founding.blank outside

theorem prepare_initial_channels_spec (idle : ∀ name node, (state.cells name node).pend = [])
    (listed : ∀ channel ∈ channels, channel ∈ state.channels)
    (done : prepareInitialChannels channels state = .ok next) : next.Founding := by
  induction channels generalizing state with
  | nil =>
    cases done
    exact founding
  | cons channel rest ih =>
    have root := founding.known.mpr rfl
    have declared := listed channel List.mem_cons_self
    have member := name_mem declared
    rcases @Channel.seed_initial_spec β σ channel (founding.sound.faithful channel declared).steady
      _ (founding.sound.usable member root) (idle _ _) (founding.sound.root_base member) with
        ⟨cell, seeded, alike, _⟩
    rw [prepareInitialChannels, seeded] at done
    have branches : (state.setCell channel.name "" cell).branches = state.branches := by
      funext name node
      by_cases here : name = channel.name ∧ node = ""
      · rw [here.1, here.2, Trunks.branches, set_cell_here]
        exact alike.branch
      · rw [Trunks.branches, set_cell_other here]
        rfl
    have usable : ∀ {name node}, name ∈ state.names → state.index.Known node →
        ((state.setCell channel.name "" cell).cells name node).Sound := by
      intro name node inside known
      by_cases here : name = channel.name ∧ node = ""
      · rw [here.1, here.2, set_cell_here]
        exact alike.sound
      · rw [set_cell_other here]
        exact founding.sound.usable inside known
    have shown : (state.setCell channel.name "" cell).shown = state.shown := by
      funext name node
      rw [Trunks.shown, branches]
      rfl
    refine @ih (state.setCell channel.name "" cell) ⟨⟨founding.sound.faithful,
      founding.sound.distinct, founding.sound.ordered, fun inside known => usable inside known, ?_⟩,
        founding.main,
      founding.index, founding.strays, founding.plan, founding.markers, ?_, ?_⟩ ?_
        (fun other inside =>
        listed other (List.mem_cons_of_mem _ inside)) done
    · intro name node inside known
      rw [branches]
      exact founding.sound.based inside known
    · rw [shown]
      exact founding.numbered
    · intro name node outside
      have apart : ¬(name = channel.name ∧ node = "") := by
        rintro ⟨rfl, rfl⟩
        rcases outside with unlisted | named
        · exact unlisted member
        · exact named rfl
      rw [set_cell_other apart]
      exact founding.blank outside
    · intro name node
      by_cases here : name = channel.name ∧ node = ""
      · rw [here.1, here.2, set_cell_here]
        exact alike.pend
      · rw [set_cell_other here]
        exact idle name node

theorem seed_related_spec {patch : β} (done : seedRelated patch channels state = .ok next) :
    next.Founding := by
  induction channels generalizing state with
  | nil =>
    cases done
    exact founding
  | cons channel rest ih =>
    rw [seedRelated] at done
    split_ifs at done with mode
    · cases wrote : state.appendRelated "" channel.name 1 patch with
      | mk answer written =>
        rw [wrote] at done
        cases answer with
        | error fault => cases done
        | ok _ =>
          rcases append_related_spec founding.sound (founding.known.mpr rfl) wrote with
            ⟨fault, failed, _⟩ | ⟨found, key, present, related, appended, _⟩
          · cases failed
          · have listed := name_mem (channel_mem present)
            rw [channel_name present] at listed
            exact ih (founding.appended listed (fun same => absurd same related) appended)
              done
    · exact ih founding done

theorem Founding.rebuild :
    state.rebuild.Proper ∧ state.rebuild.Clean ∧ state.rebuild.index = [] := by
  have retired := retire_retired founding.sound
  have index : state.retire.index = [] := retired.index.trans founding.index
  have markers : state.retire.unmarked = [] := by
    rw [retired.frame]
    exact founding.markers
  have shape : state.rebuild = { state.retire with nodeSeq := state.retire.index.seqOf } := by
    have read : Index.rebuild (state.retire.index.filter fun entry =>
        entry.1 ∉ state.retire.unmarked) = state.retire.index := by
      rw [index]
      rfl
    rw [Trunks.rebuild]
    simp only [read]
    rw [markers, List.nil_append]
  have keys : state.retire.index.keys = [] := by
    rw [index]
    rfl
  have known : ∀ {node}, state.retire.index.Known node → node = "" := by
    intro node isKnown
    rw [retired.index] at isKnown
    exact founding.known.mp isKnown
  have sound := retired.sound
  rw [shape]
  refine ⟨⟨⟨sound.faithful, sound.distinct, sound.ordered, sound.usable, sound.based⟩, ?_, ?_, ?_,
    ?_,
    ?_, ?_, ?_, ?_, ?_, markers⟩, ⟨?_, ?_, ?_⟩, index⟩
  · change state.retire.main ∈ state.retire.names
    rw [retired.main, retired.names]
    exact founding.main
  · intro node isKnown
    rw [known isKnown]
    rw [retired.main]
    exact founding.numbered.shorten (retired.shorter founding.main (founding.known.mpr rfl))
  · intro channel node _ _ _ _ record waits
    rw [show _ = [] from retired.waiting channel.name node] at waits
    cases waits
  · intro name _
    exact retired.waiting name ""
  · rw [index]
    exact List.Pairwise.nil
  · intro entry member
    rw [index] at member
    cases member
  · change 0 ≤ state.retire.index.seqOf
    rw [index]
    rfl
  · intro key member
    rw [keys] at member
    cases member
  · rw [retired.frame]
    exact founding.plan
  · rw [retired.frame]
    exact founding.strays
  · intro name node _ member
    rw [keys] at member
    cases member
  · intro name node outside
    have before : name ∉ state.names ∨ node ≠ "" := by
      refine outside.imp (fun unlisted member => unlisted ?_) fun unknown same => unknown ?_
      · change name ∈ state.retire.names
        rw [retired.names]
        exact member
      · exact Or.inl same
    have blank := founding.blank before
    rw [retired.blank blank.pend]
    exact blank.close

end

theorem create_spec {main : String} {maxLag : Nat} {genesis patch : β}
    (faithful : ∀ channel ∈ channels, channel.Faithful)
    (done : create main maxLag channels genesis patch = .ok state) :
    state.Proper ∧ state.Clean ∧ state.index = [] := by
  rw [create] at done
  split_ifs at done with distinct listed
  have empty : Founding ({
      main, maxLag, channels
      unstamped := false
      index := []
      strays := []
      nodeSeq := 0
      plan := none
      cells := fun _ _ => Cell.fresh 0 } : Trunks β σ) := by
    refine ⟨⟨faithful, distinct, trivial, fun _ _ => Cell.fresh_blank.spec.1, fun _ _ => ?_⟩,
      listed, rfl, rfl, rfl, rfl, ?_, fun _ => Cell.fresh_blank⟩
    · apply based_of_first
      intro key _
      exact congrArg Branch.base (Cell.fresh_blank : (Cell.fresh 0 : Cell β σ).Blank).spec.2
    · intro idx record found
      cases found
  cases prepared : prepareInitialChannels channels {
      main, maxLag, channels
      unstamped := false
      index := []
      strays := []
      nodeSeq := 0
      plan := none
      cells := fun _ _ => Cell.fresh 0 } with
  | error fault =>
    simp only [prepared] at done
    cases done
  | ok middle =>
    have founding := prepare_initial_channels_spec empty (fun _ _ => rfl)
      (fun _ member => member) prepared
    simp only [prepared] at done
    cases begun : middle.appendMain "" genesis [] with
    | mk answer written =>
      simp only [begun] at done
      cases answer with
      | error fault => cases done
      | ok _ =>
        rcases append_main_spec founding.sound founding.main (founding.known.mpr rfl) begun
          with ⟨fault, failed, _⟩ | appended
        · cases failed
        · cases seeded : seedRelated patch channels written with
          | error fault =>
            simp only [seeded] at done
            cases done
          | ok last =>
            simp only [seeded] at done
            cases done
            exact (seed_related_spec (founding.appended founding.main (fun _ => rfl)
              appended) seeded).rebuild

end Create

end Trunks

end Figwal.Xwal
