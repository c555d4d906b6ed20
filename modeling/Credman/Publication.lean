import Credman.Workflow

/-! What one publication does to a store directory, however it ends. -/
namespace Credman

open Library Library.FileM

/-- The new file is absent, or holds what was written of it. -/
theorem does_writeNew (name : FileName) (bytes : Bytes) : Does (writeNew name bytes)
    (fun d d' => d' = d ∨ d name = none ∧ ∃ n, d' = Function.update d name (some (bytes.take n)))
    (fun d d' => d name = none ∧ d' = Function.update d name (some bytes)) := by
  have hcreated : ∀ {d d' : Dir FileName}, created name d = some d' →
      d name = none ∧ d' = Function.update d name (some []) := by
    intro d d' hd
    unfold created at hd
    split_ifs at hd with hsome
    cases hd
    exact ⟨by simpa using hsome, rfl⟩
  have happended : ∀ (d : Dir FileName) (some' : Bytes),
      appended name some' (Function.update d name (some [])) =
        Function.update d name (some some') := by
    intro d some'
    simp [appended]
  refine (Does.create.andThen (Does.write.andThen Does.sync)).mono ?_ ?_
  · rintro d d' ((rfl | hd) | ⟨e, he, hw⟩)
    · exact .inl rfl
    · exact .inr ⟨(hcreated hd).1, 0, (hcreated hd).2⟩
    · obtain ⟨hnone, rfl⟩ := hcreated he
      refine .inr ⟨hnone, ?_⟩
      rcases hw with ⟨n, rfl⟩ | ⟨f, rfl, rfl⟩
      · exact ⟨n, happended d _⟩
      · exact ⟨bytes.length, by rw [happended, List.take_length]⟩
  · rintro d d' ⟨e, he, f, rfl, rfl⟩
    obtain ⟨hnone, rfl⟩ := hcreated he
    exact ⟨hnone, happended d _⟩

theorem does_writeIntent (previous image : Bytes) : Does (writeIntent previous image)
    (fun d d' => d' = d ∨ d .pending = none
      ∧ ∃ n, d' = Function.update d .pending (some ((gateBytes previous image).take n)))
    (fun d d' => d .pending = none
      ∧ d' = Function.update d .pending (some (gateBytes previous image))) := by
  refine ((does_writeNew .pending (gateBytes previous image)).andThen Does.sync).mono ?_ ?_
  · rintro d d' (hd | ⟨e, ⟨hnone, he⟩, rfl⟩)
    · exact hd
    · exact .inr ⟨hnone, (gateBytes previous image).length, by rw [he, List.take_length]⟩
  · rintro d d' ⟨e, he, rfl⟩
    exact he

/-! How far a publication has come, by what the store shows. -/

inductive Stage where
  | untouched
  /-- The intent is being written, and may be torn. -/
  | intending (n : Nat)
  | swapped
  | cleared

namespace Stage

def state (old : Option Bytes) (image : Bytes) : Stage → Option Bytes
  | .untouched | .intending _ => old
  | .swapped | .cleared => some image

def pending (gate : Bytes) : Stage → Option Bytes
  | .untouched | .cleared => none
  | .intending n => some (gate.take n)
  | .swapped => some gate

end Stage

/-- A directory that a publication of `image` over `d` has left at some stage. -/
structure Reached (P : Platform) (drawn : Nat) (previous image : Bytes) (d : Dir FileName)
    (stage : Stage) (d' : Dir FileName) : Prop where
  no_pending : d .pending = none
  no_recovery : d .recovery = none
  state : d' .state = stage.state (d .state) image
  pending : d' .pending = stage.pending (gateBytes previous image)
  frame : ∀ name, name ≠ .state → name ≠ .pending → name ≠ .candidate (P.uuid (drawn + 1)) →
    d' name = d name

/-- The store once `image` is its published one. -/
def Store.published (store : Store) (app : Application) (image : Bytes) (key : VaultKey)
    (salt : Salt) (kdf : KdfParams) : Store :=
  { store with
    currentImage := some image, key, salt, kdf
    persistedLastTime := app.lastTime, persistedFrozen := app.clockFrozen }

/-- How `publish_with` ends, and what it leaves. -/
inductive Published (P : Platform) (store : Store) (app : Application) (key : VaultKey)
    (salt : Salt) (kdf : KdfParams) (drawn : Nat) (d : Dir FileName) :
    Store × Publication → Dir FileName → Prop
  | gated : Published P store app key salt kdf drawn d ({ store with blocked := true }, .unknown) d
  | unsealed {e : Error} (h : sealImage P app key salt kdf (P.nonce drawn) = .error e) :
    Published P store app key salt kdf drawn d (store, .notPublished) d
  | unwritten {image : Bytes} {d' : Dir FileName}
      (h : sealImage P app key salt kdf (P.nonce drawn) = .ok image)
      (hreached : Reached P drawn (store.currentImage.getD []) image d .untouched d') :
    Published P store app key salt kdf drawn d (store, .notPublished) d'
  | unknown {image : Bytes} {stage : Stage} {d' : Dir FileName}
      (h : sealImage P app key salt kdf (P.nonce drawn) = .ok image)
      (hreached : Reached P drawn (store.currentImage.getD []) image d stage d') :
    Published P store app key salt kdf drawn d ({ store with blocked := true }, .unknown) d'
  | gating {image : Bytes} {stage : Stage} {d' : Dir FileName}
      (h : sealImage P app key salt kdf (P.nonce drawn) = .ok image)
      (hstage : stage = .swapped ∨ stage = .cleared)
      (hreached : Reached P drawn (store.currentImage.getD []) image d stage d') :
    Published P store app key salt kdf drawn d
      ({ store.published app image key salt kdf with blocked := true }, .durable) d'
  | durable {image : Bytes} {d' : Dir FileName} (hopen : store.blocked = false)
      (h : sealImage P app key salt kdf (P.nonce drawn) = .ok image)
      (hreached : Reached P drawn (store.currentImage.getD []) image d .cleared d') :
    Published P store app key salt kdf drawn d (store.published app image key salt kdf, .durable) d'

/-- What a publication leaves when its process dies. -/
inductive Cut (P : Platform) (store : Store) (app : Application) (key : VaultKey) (salt : Salt)
    (kdf : KdfParams) (drawn : Nat) (d : Dir FileName) : Dir FileName → Prop
  | early : Cut P store app key salt kdf drawn d d
  | reached {image : Bytes} {stage : Stage} {d' : Dir FileName}
      (h : sealImage P app key salt kdf (P.nonce drawn) = .ok image)
      (hreached : Reached P drawn (store.currentImage.getD []) image d stage d') :
    Cut P store app key salt kdf drawn d d'

/-- A session later on: more is drawn, and the same callbacks have run. -/
structure Session.Later (s s' : Session) : Prop where
  drawn : s.drawn ≤ s'.drawn
  handoffs : s'.handoffs = s.handoffs

theorem Session.Later.trans {s s' s'' : Session} (h : s.Later s') (h' : s'.Later s'') : s.Later s'' :=
  ⟨h.drawn.trans h'.drawn, h'.handoffs.trans h.handoffs⟩

theorem wp_drawIndex {post : Nat → VaultMachine → Prop} {halt : Halted → VaultMachine → Prop}
    {m : VaultMachine} : wp drawIndex post halt m ↔
      post m.rest.drawn { m with rest := { m.rest with drawn := m.rest.drawn + 1 } } := Iff.rfl

/-- Asking for a file takes one operation and changes nothing. -/
theorem wp_gateExists {name : FileName} {post : Except Error Bool → VaultMachine → Prop}
    {halt : Halted → VaultMachine → Prop} {m : VaultMachine}
    (hdone : ∀ faults, post (.ok (m.dir name).isSome) { m with faults })
    (hfail : ∀ faults, post (.error .recoveryRequired) { m with faults })
    (hcrash : ∀ faults, halt .halted { m with faults }) : wp (gateExists name) post halt m := by
  rw [gateExists, wp_bind]
  exact wp_read hdone hfail hcrash

theorem wp_pendingExists {post : Except Error Bool → VaultMachine → Prop}
    {halt : Halted → VaultMachine → Prop} {m : VaultMachine}
    (hclear : m.dir .pending = none → m.dir .recovery = none →
      ∀ faults, post (.ok false) { m with faults })
    (hgated : ∀ faults, post (.ok true) { m with faults })
    (hfail : ∀ faults, post (.error .recoveryRequired) { m with faults })
    (hcrash : ∀ faults, halt .halted { m with faults }) : wp pendingExists post halt m := by
  rw [pendingExists, wp_bind]
  apply wp_gateExists
  · intro faults
    cases hpending : m.dir .pending with
    | some bytes => exact hgated faults
    | none =>
      apply wp_gateExists
      · intro faults'
        cases hrecovery : m.dir .recovery with
        | some bytes =>
          simp only
          exact hgated faults'
        | none =>
          simp only
          exact hclear hpending hrecovery faults'
      · exact hfail
      · exact hcrash
  · exact fun faults => hfail faults
  · exact hcrash

/-- Running a file operation, by what it does to the directory. -/
theorem wp_does {x : VaultIo Bool} {partly wholly : Dir FileName → Dir FileName → Prop}
    {post : Bool → VaultMachine → Prop} {halt : Halted → VaultMachine → Prop} {m : VaultMachine}
    (h : Does x partly wholly)
    (hfail : ∀ faults dir, partly m.dir dir → post false { m with faults, dir })
    (hdone : ∀ faults dir, wholly m.dir dir → post true { m with faults, dir })
    (hcrash : ∀ faults dir, partly m.dir dir → halt .halted { m with faults, dir }) :
    wp x post halt m := by
  apply wp_mono (h m)
  · rintro ok ⟨dir, faults, rest⟩ ⟨rfl, hp, hw⟩
    cases ok with
    | false => exact hfail faults dir hp
    | true => exact hdone faults dir (hw rfl)
  · rintro ⟨⟩ ⟨dir, faults, rest⟩ ⟨rfl, hp⟩
    exact hcrash faults dir hp

namespace Reached

variable {P : Platform} {drawn : Nat} {previous image : Bytes} {d d' d'' : Dir FileName}

/-- Only the temporary file has been touched. -/
theorem of_temp (hpending : d .pending = none) (hrecovery : d .recovery = none)
    (hframe : ∀ name, name ≠ .candidate (P.uuid (drawn + 1)) → d' name = d name) :
    Reached P drawn previous image d .untouched d' :=
  ⟨hpending, hrecovery, hframe .state (by simp), (hframe .pending (by simp)).trans hpending,
    fun name _ _ htemp => hframe name htemp⟩

theorem intend (h : Reached P drawn previous image d .untouched d') (n : Nat) :
    Reached P drawn previous image d (.intending n)
      (Function.update d' .pending (some ((gateBytes previous image).take n))) := by
  refine ⟨h.no_pending, h.no_recovery, ?_, Function.update_self .., fun name hs hp ht => ?_⟩
  · rw [Function.update_of_ne (by simp)]
    exact h.state
  · rw [Function.update_of_ne hp]
    exact h.frame name hs hp ht

theorem swap (h : Reached P drawn previous image d (.intending (gateBytes previous image).length) d')
    {createOnly : Bool} (htemp : d' (.candidate (P.uuid (drawn + 1))) = some image)
    (hrenamed : renamed (.candidate (P.uuid (drawn + 1))) .state createOnly d' = some d'') :
    Reached P drawn previous image d .swapped d'' := by
  unfold renamed at hrenamed
  split_ifs at hrenamed
  cases hrenamed
  refine ⟨h.no_pending, h.no_recovery, ?_, ?_, fun name hs hp ht => ?_⟩
  · rw [Function.update_of_ne (by simp), Function.update_self, htemp]
    rfl
  · rw [Function.update_of_ne (by simp), Function.update_of_ne (by simp), h.pending]
    simp [Stage.pending]
  · rw [Function.update_of_ne ht, Function.update_of_ne hs]
    exact h.frame name hs hp ht

theorem clear (h : Reached P drawn previous image d .swapped d')
    (hunlinked : unlinked .pending d' = some d'') : Reached P drawn previous image d .cleared d'' := by
  unfold unlinked at hunlinked
  split_ifs at hunlinked
  cases hunlinked
  refine ⟨h.no_pending, h.no_recovery, ?_, Function.update_self .., fun name hs hp ht => ?_⟩
  · rw [Function.update_of_ne (by simp)]
    exact h.state
  · rw [Function.update_of_ne hp]
    exact h.frame name hs hp ht

end Reached

theorem wp_publishWith (P : Platform) (store : Store) (app : Application) (key : VaultKey)
    (salt : Salt) (kdf : KdfParams) (m : VaultMachine) :
    wp (store.publishWith P app key salt kdf)
      (fun out m' => m.rest.Later m'.rest
        ∧ Published P store app key salt kdf m.rest.drawn m.dir out m'.dir)
      (fun _ m' => m.rest.Later m'.rest
        ∧ Cut P store app key salt kdf m.rest.drawn m.dir m'.dir) m := by
  obtain ⟨d, faults, rest⟩ := m
  have hsame : rest.Later rest := ⟨le_refl _, rfl⟩
  have hone : rest.Later { rest with drawn := rest.drawn + 1 } := ⟨by simp, rfl⟩
  have htwo : rest.Later { rest with drawn := rest.drawn + 1 + 1 } := ⟨by simp; omega, rfl⟩
  unfold Store.publishWith
  rw [wp_ite]
  refine ⟨fun _ => ⟨hsame, .gated⟩, fun hopen => ?_⟩
  rw [Bool.not_eq_true] at hopen
  simp only [wp_bind]
  apply wp_pendingExists
  case hgated => exact fun faults => ⟨hsame, .gated⟩
  case hfail => exact fun faults => ⟨hsame, .gated⟩
  case hcrash => exact fun faults => ⟨hsame, .early⟩
  intro hpending hrecovery faults
  simp only [wp_bind, wp_drawIndex]
  cases hseal : sealImage P app key salt kdf (P.nonce rest.drawn) with
  | error e => exact ⟨hone, .unsealed hseal⟩
  | ok image =>
    simp only [wp_bind, wp_drawIndex]
    have hstop : (!false) = true := rfl
    have hgo : ¬ (!true) = true := by simp
    generalize htempName : FileName.candidate (P.uuid (rest.drawn + 1)) = temp
    have htemp : ∀ {d' : Dir FileName}, (∀ name, name ≠ temp → d' name = d name) →
        Reached P rest.drawn (store.currentImage.getD []) image d .untouched d' := by
      intro d' hframe
      rw [← htempName] at hframe
      exact .of_temp hpending hrecovery hframe
    have hwritten : ∀ d' : Dir FileName, (d' = d ∨ d temp = none
        ∧ ∃ n, d' = Function.update d temp (some (image.take n))) →
          ∀ name, name ≠ temp → d' name = d name := by
      rintro d' (rfl | ⟨-, n, rfl⟩) name hname
      · rfl
      · rw [Function.update_of_ne hname]
    -- the candidate is written under a temporary name
    apply wp_does (does_writeNew _ _)
    case hfail =>
      intro faults d' hd'
      have hsecond : ∀ d'', (d'' = d' ∨ unlinked temp d' = some d'') →
          ∀ name, name ≠ temp → d'' name = d name := by
        rintro d'' (rfl | hunlinked) name hname
        · exact hwritten d'' hd' name hname
        · unfold unlinked at hunlinked
          split_ifs at hunlinked
          cases hunlinked
          rw [Function.update_of_ne hname]
          exact hwritten d' hd' name hname
      rw [if_pos hstop, wp_bind]
      apply wp_does Does.unlink
      · exact fun faults d'' hd'' => ⟨htwo, .unwritten hseal (htemp (hsecond d'' hd''))⟩
      · exact fun faults d'' hd'' => ⟨htwo, .unwritten hseal (htemp (hsecond d'' (.inr hd'')))⟩
      · exact fun faults d'' hd'' => ⟨htwo, .reached hseal (htemp (hsecond d'' hd''))⟩
    case hcrash =>
      exact fun faults d' hd' => ⟨htwo, .reached hseal (htemp (hwritten d' hd'))⟩
    rintro faults d₁ ⟨hnone, rfl⟩
    rw [if_neg hgo, wp_bind]
    have hready : Reached P rest.drawn (store.currentImage.getD []) image d .untouched
        (Function.update d temp (some image)) :=
      htemp fun name hname => Function.update_of_ne hname _ _
    -- the intent is written in place
    have hintent : ∀ d' : Dir FileName, (d' = Function.update d temp (some image)
        ∨ Function.update d temp (some image) .pending = none ∧ ∃ n, d' = Function.update
          (Function.update d temp (some image)) .pending
            (some ((gateBytes (store.currentImage.getD []) image).take n))) →
        ∃ stage, Reached P rest.drawn (store.currentImage.getD []) image d stage d' := by
      rintro d' (rfl | ⟨-, n, rfl⟩)
      · exact ⟨_, hready⟩
      · exact ⟨_, hready.intend n⟩
    apply wp_does (does_writeIntent _ _)
    case hfail =>
      intro faults d' hd'
      obtain ⟨stage, hreached⟩ := hintent d' hd'
      rw [if_pos hstop]
      exact ⟨htwo, .unknown hseal hreached⟩
    case hcrash =>
      intro faults d' hd'
      obtain ⟨stage, hreached⟩ := hintent d' hd'
      exact ⟨htwo, .reached hseal hreached⟩
    rintro faults d₂ ⟨-, rfl⟩
    rw [if_neg hgo, wp_bind]
    have hwhole := hready.intend (gateBytes (store.currentImage.getD []) image).length
    rw [List.take_length] at hwhole
    have himage : Function.update (Function.update d temp (some image)) .pending
        (some (gateBytes (store.currentImage.getD []) image)) temp = some image := by
      rw [Function.update_of_ne (by rw [← htempName]; simp), Function.update_self]
    -- the candidate replaces the state
    have hswap : ∀ d', renamed temp .state store.currentImage.isNone (Function.update
        (Function.update d temp (some image)) .pending
          (some (gateBytes (store.currentImage.getD []) image))) = some d' →
        Reached P rest.drawn (store.currentImage.getD []) image d .swapped d' := by
      intro d' hd'
      rw [← htempName] at hd' himage hwhole
      exact hwhole.swap himage hd'
    have hrename : ∀ d', (d' = Function.update (Function.update d temp (some image)) .pending
          (some (gateBytes (store.currentImage.getD []) image))
        ∨ renamed temp .state store.currentImage.isNone (Function.update
          (Function.update d temp (some image)) .pending
            (some (gateBytes (store.currentImage.getD []) image))) = some d') →
        ∃ stage, Reached P rest.drawn (store.currentImage.getD []) image d stage d' := by
      rintro d' (rfl | hd')
      · exact ⟨_, hwhole⟩
      · exact ⟨_, hswap d' hd'⟩
    apply wp_does Does.rename
    case hfail =>
      intro faults d' hd'
      obtain ⟨stage, hreached⟩ := hrename d' hd'
      rw [if_pos hstop]
      exact ⟨htwo, .unknown hseal hreached⟩
    case hcrash =>
      intro faults d' hd'
      obtain ⟨stage, hreached⟩ := hrename d' hd'
      exact ⟨htwo, .reached hseal hreached⟩
    intro faults d₃ hd₃
    have hswapped := hswap d₃ hd₃
    have hunlink : ∀ d', (d' = d₃ ∨ unlinked .pending d₃ = some d') →
        ∃ stage, (stage = .swapped ∨ stage = .cleared)
          ∧ Reached P rest.drawn (store.currentImage.getD []) image d stage d' := by
      rintro d' (rfl | hd')
      · exact ⟨_, .inl rfl, hswapped⟩
      · exact ⟨_, .inr rfl, hswapped.clear hd'⟩
    rw [if_neg hgo, wp_bind]
    apply wp_does Does.sync
    case hfail =>
      rintro faults _ rfl
      rw [if_pos hstop]
      exact ⟨htwo, .unknown hseal hswapped⟩
    case hcrash =>
      rintro faults _ rfl
      exact ⟨htwo, .reached hseal hswapped⟩
    rintro faults _ rfl
    rw [if_neg hgo, wp_bind]
    -- the intent is cleared
    apply wp_does Does.unlink
    case hfail =>
      intro faults d' hd'
      obtain ⟨stage, hstage, hreached⟩ := hunlink d' hd'
      rw [if_pos hstop]
      exact ⟨htwo, .gating hseal hstage hreached⟩
    case hcrash =>
      intro faults d' hd'
      obtain ⟨stage, -, hreached⟩ := hunlink d' hd'
      exact ⟨htwo, .reached hseal hreached⟩
    intro faults d₄ hd₄
    have hcleared := hswapped.clear hd₄
    rw [if_neg hgo, wp_bind]
    apply wp_does Does.sync
    · rintro faults _ rfl
      rw [if_pos hstop]
      exact ⟨htwo, .gating hseal (.inr rfl) hcleared⟩
    · rintro faults _ rfl
      rw [if_neg hgo]
      exact ⟨htwo, .durable hopen hseal hcleared⟩
    · rintro faults _ rfl
      exact ⟨htwo, .reached hseal hcleared⟩

namespace DurableVault

/-- How `commit` ends for one candidate, and what it leaves. -/
inductive Committed (P : Platform) (owner : DurableVault) (candidate : Application) (drawn : Nat)
    (d : Dir FileName) : DurableVault × Except Error Unit → Dir FileName → Prop
  | rejected {e : Error} (h : owner.stage P candidate = .error e) :
    Committed P owner candidate drawn d (owner, .error e) d
  | memory (h : owner.stage P candidate = .ok none) :
    Committed P owner candidate drawn d
      ({ owner with app := { owner.app with lastTime := candidate.lastTime } }, .ok ()) d
  | notPublished {staged : Application} {store : Store} {d' : Dir FileName}
      (h : owner.stage P candidate = .ok (some staged))
      (hpublished : Published P owner.store staged owner.store.key owner.store.salt owner.store.kdf
        drawn d (store, .notPublished) d') :
    Committed P owner candidate drawn d ({ owner with store }, .error .notPublished) d'
  | unknown {staged : Application} {store : Store} {d' : Dir FileName}
      (h : owner.stage P candidate = .ok (some staged))
      (hpublished : Published P owner.store staged owner.store.key owner.store.salt owner.store.kdf
        drawn d (store, .unknown) d') :
    Committed P owner candidate drawn d
      ({ owner with store, frozen := true }, .error .recoveryRequired) d'
  | durable {staged : Application} {store : Store} {d' : Dir FileName}
      (h : owner.stage P candidate = .ok (some staged))
      (hpublished : Published P owner.store staged owner.store.key owner.store.salt owner.store.kdf
        drawn d (store, .durable) d') :
    Committed P owner candidate drawn d ({ app := staged, store, frozen := store.blocked }, .ok ()) d'

/-- What a commit leaves when its process dies. -/
inductive CommitCut (P : Platform) (owner : DurableVault) (candidate : Application) (drawn : Nat)
    (d : Dir FileName) : Dir FileName → Prop
  | early : CommitCut P owner candidate drawn d d
  | cut {staged : Application} {d' : Dir FileName} (h : owner.stage P candidate = .ok (some staged))
      (hcut : Cut P owner.store staged owner.store.key owner.store.salt owner.store.kdf drawn d d') :
    CommitCut P owner candidate drawn d d'

theorem wp_commit (P : Platform) (owner : DurableVault) (candidate : Application)
    (m : VaultMachine) :
    wp (owner.commit P candidate)
      (fun out m' => m.rest.Later m'.rest
        ∧ Committed P owner candidate m.rest.drawn m.dir out m'.dir)
      (fun _ m' => m.rest.Later m'.rest
        ∧ CommitCut P owner candidate m.rest.drawn m.dir m'.dir) m := by
  unfold commit
  have hsame : m.rest.Later m.rest := ⟨le_refl _, rfl⟩
  cases hstage : owner.stage P candidate with
  | error e => exact ⟨hsame, .rejected hstage⟩
  | ok staged =>
    cases staged with
    | none => exact ⟨hsame, .memory hstage⟩
    | some staged =>
      simp only [wp_bind]
      apply wp_mono (wp_publishWith P owner.store staged owner.store.key owner.store.salt
        owner.store.kdf m)
      · rintro ⟨store, publication⟩ m' ⟨hlater, hpublished⟩
        cases publication with
        | notPublished => exact ⟨hlater, .notPublished hstage hpublished⟩
        | unknown => exact ⟨hlater, .unknown hstage hpublished⟩
        | durable => exact ⟨hlater, .durable hstage hpublished⟩
      · rintro _ m' ⟨hlater, hcut⟩
        exact ⟨hlater, .cut hstage hcut⟩

/-- What an operation returns, and the candidate it hands to `commit`. -/
def proposal {α : Type} (owner : DurableVault) (operation : AppM α) : Except Error α × Application :=
  match operation.run owner.staged with
  | .ok value candidate => (.ok value, candidate)
  | .error e candidate => (.error e, candidate)

/-- An operation that could not be committed is not answered. -/
def answered {α : Type} (committed : Except Error Unit) (result : Except Error α) : Except Error α :=
  match committed with
  | .error e => .error e
  | .ok () => result

theorem wp_apply {α : Type} (P : Platform) (owner : DurableVault) (operation : AppM α)
    (m : VaultMachine) :
    wp (owner.apply P operation)
      (fun out m' => (owner.ready = .error .recoveryRequired
          ∧ out = (owner, .error .recoveryRequired) ∧ m' = m)
        ∨ owner.ready = .ok () ∧ ∃ committed, m.rest.Later m'.rest
          ∧ Committed P owner (owner.proposal operation).2 m.rest.drawn m.dir (out.1, committed) m'.dir
          ∧ out.2 = answered committed (owner.proposal operation).1)
      (fun _ m' => owner.ready = .ok () ∧ m.rest.Later m'.rest
        ∧ CommitCut P owner (owner.proposal operation).2 m.rest.drawn m.dir m'.dir) m := by
  unfold apply
  cases hready : owner.ready with
  | error e =>
    have he : e = .recoveryRequired := by
      unfold ready at hready
      split_ifs at hready
      cases hready
      rfl
    subst he
    exact .inl ⟨rfl, rfl, rfl⟩
  | ok u =>
    change wp (owner.commit P (owner.proposal operation).2 >>= _) _ _ m
    rw [wp_bind]
    apply wp_mono (wp_commit P owner (owner.proposal operation).2 m)
    · rintro ⟨owner', committed⟩ m' ⟨hlater, hcommitted⟩
      cases committed with
      | error e => exact .inr ⟨rfl, .error e, hlater, hcommitted, rfl⟩
      | ok u => exact .inr ⟨rfl, .ok (), hlater, hcommitted, rfl⟩
    · exact fun _ m' ⟨hlater, hcut⟩ => ⟨rfl, hlater, hcut⟩

end DurableVault

end Credman
