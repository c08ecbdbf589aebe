import Mathlib.Data.List.Nodup
import Mathlib.Data.List.Perm.Basic

/-!
# Options of a command line

A loop over words, in which a word is a flag or an option that takes the next word, up
to a word that stops it. It reads exactly the words of written options
(`readOptions_ok_iff`). Where the state only records the options so far and each of some
names is taken once, the loop accepts every well-formed list of options, with the state
of that list (`readOptions_view_iff`).
-/

namespace NativeGuard.Data

variable {ε σ ν α : Type}

/-! ## §1  The loop -/

/-- An option: a flag, or one that takes the word behind it. -/
inductive Switch (ε σ α : Type) where
  | flag (set : σ → Except ε σ)
  | valued (missing : ε) (set : σ → α → Except ε σ)

/-- An option that is refused once it has been seen, or if its value does not read. -/
def Switch.reading {β : Type} (refused : ε) (seen : σ → Bool) (read : α → Option β)
    (set : σ → β → σ) : Switch ε σ α :=
  .valued refused fun s value =>
    if seen s = true then .error refused
    else
      match read value with
      | none => .error refused
      | some read => .ok (set s read)

/-- A value that is read as it is, if it is valid. -/
def keepIf (valid : α → Bool) (value : α) : Option α :=
  if valid value = true then some value else none

/-- The options read from the front, and the words from the stop on. -/
def readOptions (find : α → Except ε ν) (switch : ν → Switch ε σ α) (stop : α → Bool) :
    σ → List α → Except ε (σ × List α)
  | s, [] => .ok (s, [])
  | s, word :: words =>
      if stop word = true then .ok (s, word :: words)
      else
        match find word with
        | .error e => .error e
        | .ok name =>
            match switch name with
            | .flag set => set s >>= fun s => readOptions find switch stop s words
            | .valued missing set =>
                match words with
                | [] => .error missing
                | value :: words =>
                    set s value >>= fun s => readOptions find switch stop s words

/-! ## §2  Written options -/

inductive Written (ν α : Type) where
  | flag (name : ν)
  | valued (name : ν) (value : α)
deriving DecidableEq, Repr

namespace Written

def name : Written ν α → ν
  | .flag name => name
  | .valued name _ => name

def words (word : ν → α) : Written ν α → List α
  | .flag name => [word name]
  | .valued name value => [word name, value]

/-- The value, if the option has this name. -/
def valueOf [DecidableEq ν] (name : ν) : Written ν α → Option α
  | .flag _ => none
  | .valued name' value => if name' = name then some value else none

end Written

/-- Every name is found by its word and by no other, and does not stop the loop. -/
structure Spelling (find : α → Except ε ν) (word : ν → α) (stop : α → Bool) : Prop where
  find_iff : ∀ w name, find w = .ok name ↔ w = word name
  not_stop : ∀ name, stop (word name) = false

/-- The state behind a written option. -/
def setOption (switch : ν → Switch ε σ α) (s : σ) : Written ν α → Option σ
  | .flag name =>
      match switch name with
      | .flag set => (set s).toOption
      | .valued _ _ => none
  | .valued name value =>
      match switch name with
      | .flag _ => none
      | .valued _ set => (set s value).toOption

variable {find : α → Except ε ν} {switch : ν → Switch ε σ α} {stop : α → Bool} {word : ν → α}

theorem setOption_flag {name : ν} {set : σ → Except ε σ} (h : switch name = .flag set) (s : σ) :
    setOption switch s (.flag name) = (set s).toOption := by
  simp only [setOption, h]

theorem setOption_valued {name : ν} {missing : ε} {set : σ → α → Except ε σ}
    (h : switch name = .valued missing set) (s : σ) (value : α) :
    setOption switch s (.valued name value) = (set s value).toOption := by
  simp only [setOption, h]

theorem toOption_eq_some {r : Except ε σ} {s : σ} : r.toOption = some s ↔ r = .ok s := by
  cases r with
  | error e => exact iff_of_false nofun nofun
  | ok s' =>
      constructor
      · exact fun h => congrArg Except.ok (Option.some.inj h)
      · exact fun h => congrArg some (Except.ok.inj h)

theorem mapError_ok_iff {ε ε' α : Type} {f : ε → ε'} {r : Except ε α} {a : α} :
    r.mapError f = .ok a ↔ r = .ok a := by
  cases r with
  | error e => exact iff_of_false nofun nofun
  | ok a' =>
      show Except.ok a' = .ok a ↔ _
      rw [Except.ok.injEq, Except.ok.injEq]

theorem keepIf_eq_some {valid : α → Bool} {value kept : α} :
    keepIf valid value = some kept ↔ valid value = true ∧ kept = value := by
  unfold keepIf
  split
  · rename_i h
    rw [Option.some.injEq]
    exact ⟨fun heq => ⟨h, heq.symm⟩, fun heq => heq.2.symm⟩
  · rename_i h
    exact iff_of_false nofun fun hkept => h hkept.1

theorem keepIf_isSome {valid : α → Bool} {value : α} :
    (keepIf valid value).isSome = true ↔ valid value = true := by
  rw [Option.isSome_iff_exists]
  simp only [keepIf_eq_some]
  exact ⟨fun ⟨_, h, _⟩ => h, fun h => ⟨value, h, rfl⟩⟩

/-- Setting a value that is read: the option is new, and its value reads. -/
theorem setOption_reading_iff {β : Type} {name : ν} {refused : ε} {seen : σ → Bool}
    {read : α → Option β} {set : σ → β → σ} (h : switch name = .reading refused seen read set)
    {s s' : σ} {value : α} :
    setOption switch s (.valued name value) = some s' ↔
      seen s = false ∧ ∃ r, read value = some r ∧ s' = set s r := by
  rw [setOption_valued h, toOption_eq_some]
  cases hseen : seen s with
  | true => exact iff_of_false nofun fun h => nomatch h.1
  | false =>
      cases hread : read value with
      | none => exact iff_of_false nofun fun ⟨_, _, h, _⟩ => nomatch h
      | some r =>
          rw [if_neg Bool.false_ne_true]
          constructor
          · intro h
            cases h
            exact ⟨rfl, r, rfl, rfl⟩
          · rintro ⟨-, r', hr, rfl⟩
            cases hr
            rfl

theorem readOptions_stop {w : α} (h : stop w = true) (s : σ) (words : List α) :
    readOptions find switch stop s (w :: words) = .ok (s, w :: words) := by
  unfold readOptions
  rw [if_pos h]

theorem readOptions_flag (h : Spelling find word stop) {name : ν} {set : σ → Except ε σ}
    (hswitch : switch name = .flag set) (s : σ) (words : List α) :
    readOptions find switch stop s (word name :: words) =
      set s >>= fun s => readOptions find switch stop s words := by
  rw [readOptions.eq_2, if_neg (by rw [h.not_stop]; exact Bool.false_ne_true),
    (h.find_iff _ name).mpr rfl]
  dsimp only
  rw [hswitch]

theorem readOptions_valued (h : Spelling find word stop) {name : ν} {missing : ε}
    {set : σ → α → Except ε σ} (hswitch : switch name = .valued missing set) (s : σ) (value : α)
    (words : List α) :
    readOptions find switch stop s (word name :: value :: words) =
      set s value >>= fun s => readOptions find switch stop s words := by
  rw [readOptions.eq_2, if_neg (by rw [h.not_stop]; exact Bool.false_ne_true),
    (h.find_iff _ name).mpr rfl]
  dsimp only
  rw [hswitch]

/-- The loop reads the words of options that can be set. -/
theorem readOptions_of_foldlM (h : Spelling find word stop) {s s' : σ}
    {options : List (Written ν α)} (hset : options.foldlM (setOption switch) s = some s')
    {rest : List α} (hrest : ∀ w ∈ rest.head?, stop w = true) :
    readOptions find switch stop s (options.flatMap (Written.words word) ++ rest) =
      .ok (s', rest) := by
  induction options generalizing s with
  | nil =>
      cases hset
      cases rest with
      | nil => rfl
      | cons w rest => exact readOptions_stop (hrest w rfl) _ _
  | cons option options ih =>
      obtain ⟨next, hnext, hlater⟩ := Option.bind_eq_some_iff.mp hset
      cases option with
      | flag name =>
          cases hswitch : switch name with
          | flag set =>
              rw [setOption_flag hswitch, toOption_eq_some] at hnext
              refine (readOptions_flag h hswitch _ _).trans ?_
              rw [hnext]
              exact ih hlater
          | valued missing set =>
              simp only [setOption, hswitch] at hnext
              cases hnext
      | valued name value =>
          cases hswitch : switch name with
          | flag set =>
              simp only [setOption, hswitch] at hnext
              cases hnext
          | valued missing set =>
              rw [setOption_valued hswitch, toOption_eq_some] at hnext
              refine (readOptions_valued h hswitch _ _ _).trans ?_
              rw [hnext]
              exact ih hlater

theorem foldlM_of_readOptions (h : Spelling find word stop) {s s' : σ} {words rest : List α}
    (hread : readOptions find switch stop s words = .ok (s', rest)) :
    ∃ options : List (Written ν α), words = options.flatMap (Written.words word) ++ rest ∧
      (∀ w ∈ rest.head?, stop w = true) ∧ options.foldlM (setOption switch) s = some s' := by
  fun_induction readOptions find switch stop s words with
  | case1 s =>
      cases hread
      exact ⟨[], rfl, nofun, rfl⟩
  | case2 s w words hstop =>
      cases hread
      exact ⟨[], rfl, fun _ hword => Option.some.inj hword ▸ hstop, rfl⟩
  | case3 s w words hstop e hfind => cases hread
  | case4 s w words hstop name hfind set hswitch ih =>
      cases hset : set s with
      | error e =>
          rw [hset] at hread
          cases hread
      | ok next =>
          rw [hset] at hread
          obtain ⟨options, rfl, hrest, hlater⟩ := ih next hread
          refine ⟨.flag name :: options, ?_, hrest, ?_⟩
          · rw [(h.find_iff _ _).mp hfind]
            rfl
          · rw [List.foldlM_cons, setOption_flag hswitch, hset]
            exact hlater
  | case5 s w hstop name hfind missing set hswitch => cases hread
  | case6 s w hstop name hfind missing set hswitch value words ih =>
      cases hset : set s value with
      | error e =>
          rw [hset] at hread
          cases hread
      | ok next =>
          rw [hset] at hread
          obtain ⟨options, rfl, hrest, hlater⟩ := ih next hread
          refine ⟨.valued name value :: options, ?_, hrest, ?_⟩
          · rw [(h.find_iff _ _).mp hfind]
            rfl
          · rw [List.foldlM_cons, setOption_valued hswitch, hset]
            exact hlater

/-- The loop succeeds exactly on the words of options that can be set one behind the
other, up to the end or a stop. -/
theorem readOptions_ok_iff (h : Spelling find word stop) {s s' : σ} {words rest : List α} :
    readOptions find switch stop s words = .ok (s', rest) ↔
      ∃ options : List (Written ν α), words = options.flatMap (Written.words word) ++ rest ∧
        (∀ w ∈ rest.head?, stop w = true) ∧
          options.foldlM (setOption switch) s = some s' := by
  constructor
  · exact foldlM_of_readOptions h
  · rintro ⟨options, rfl, hrest, hset⟩
    exact readOptions_of_foldlM h hset hrest

/-! ## §3  States that record the options -/

/-- Every option is valid, and a name for one use has one at most. -/
structure WellFormed (once : ν → Prop) (valid : Written ν α → Prop)
    (options : List (Written ν α)) : Prop where
  valid : ∀ option ∈ options, valid option
  once : options.Pairwise fun a b => once a.name → a.name ≠ b.name

variable {once : ν → Prop} {valid : Written ν α → Prop}

theorem WellFormed.perm {options options' : List (Written ν α)} (hperm : options.Perm options')
    (h : WellFormed once valid options) : WellFormed once valid options' where
  valid := fun option hmem => h.valid option (hperm.mem_iff.mpr hmem)
  once := hperm.pairwise h.once fun hne honce heq => hne (heq ▸ honce) heq.symm

theorem wellFormed_append_singleton {options : List (Written ν α)} {option : Written ν α} :
    WellFormed once valid (options ++ [option]) ↔ WellFormed once valid options ∧
      valid option ∧ (once option.name → ∀ earlier ∈ options, earlier.name ≠ option.name) := by
  constructor
  · intro h
    obtain ⟨honce, -, hlast⟩ := List.pairwise_append.mp h.once
    refine ⟨⟨fun o ho => h.valid o (List.mem_append_left _ ho), honce⟩,
      h.valid option (List.mem_append_right _ List.mem_cons_self), ?_⟩
    intro hname earlier hmem heq
    exact hlast earlier hmem option List.mem_cons_self (heq ▸ hname) heq
  · rintro ⟨h, hvalid, hfresh⟩
    constructor
    · intro o ho
      rcases List.mem_append.mp ho with hold | hnew
      · exact h.valid o hold
      · exact List.mem_singleton.mp hnew ▸ hvalid
    · refine List.pairwise_append.mpr ⟨h.once, List.pairwise_singleton _ _, ?_⟩
      intro earlier hmem last hlast honce heq
      obtain rfl := List.mem_singleton.mp hlast
      exact hfresh (heq ▸ honce) earlier hmem heq

variable (switch once valid)

/-- The state records the options: one more is set exactly if the options are still well
formed with it, and then the state records it too. -/
def Records (view : List (Written ν α) → σ) : Prop :=
  ∀ options option s', WellFormed once valid options →
    (setOption switch (view options) option = some s' ↔
      WellFormed once valid (options ++ [option]) ∧ s' = view (options ++ [option]))

variable {switch once valid} {view : List (Written ν α) → σ}

/-- An option with a value is recorded, if what it looks at is in the options. -/
theorem records_reading {β : Type} {name : ν} {refused : ε} {seen : σ → Bool}
    {read : α → Option β} {set : σ → β → σ} (h : switch name = .reading refused seen read set)
    {options : List (Written ν α)} (hformed : WellFormed once valid options) {value : α}
    (hseen : seen (view options) = true ↔
      once name ∧ ∃ earlier ∈ options, earlier.name = name)
    (hread : (read value).isSome = true ↔ valid (.valued name value))
    (hset : ∀ r, read value = some r → (once name → ∀ earlier ∈ options, earlier.name ≠ name) →
      set (view options) r = view (options ++ [.valued name value]))
    (s' : σ) :
    setOption switch (view options) (.valued name value) = some s' ↔
      WellFormed once valid (options ++ [.valued name value]) ∧
        s' = view (options ++ [.valued name value]) := by
  rw [setOption_reading_iff h]
  have hfresh : seen (view options) = false ↔
      (once name → ∀ earlier ∈ options, earlier.name ≠ name) := by
    rw [← Bool.not_eq_true, hseen]
    push Not
    exact Iff.rfl
  constructor
  · rintro ⟨hnew, r, hr, rfl⟩
    have hvalid := hread.mp (by rw [hr]; rfl)
    exact ⟨wellFormed_append_singleton.mpr ⟨hformed, hvalid, hfresh.mp hnew⟩,
      hset r hr (hfresh.mp hnew)⟩
  · rintro ⟨hnext, rfl⟩
    obtain ⟨-, hvalid, hnew⟩ := wellFormed_append_singleton.mp hnext
    obtain ⟨r, hr⟩ := Option.isSome_iff_exists.mp (hread.mpr hvalid)
    exact ⟨hfresh.mpr hnew, r, hr, (hset r hr hnew).symm⟩

/-- An option that may be repeated is recorded, if the state never refuses it. -/
theorem records_again {β : Type} {name : ν} {refused : ε} {read : α → Option β}
    {set : σ → β → σ} (h : switch name = .reading refused (fun _ => false) read set)
    {options : List (Written ν α)} (hformed : WellFormed once valid options)
    (honce : ¬ once name) {value : α}
    (hread : (read value).isSome = true ↔ valid (.valued name value))
    (hset : ∀ r, read value = some r →
      set (view options) r = view (options ++ [.valued name value]))
    (s' : σ) :
    setOption switch (view options) (.valued name value) = some s' ↔
      WellFormed once valid (options ++ [.valued name value]) ∧
        s' = view (options ++ [.valued name value]) :=
  records_reading h hformed (iff_of_false Bool.false_ne_true fun hseen => honce hseen.1) hread
    (fun r hr _ => hset r hr) s'

theorem foldlM_view_iff (h : Records switch once valid view) {before : List (Written ν α)}
    (hbefore : WellFormed once valid before) {s' : σ} (options : List (Written ν α)) :
    options.foldlM (setOption switch) (view before) = some s' ↔
      WellFormed once valid (before ++ options) ∧ s' = view (before ++ options) := by
  induction options generalizing before with
  | nil =>
      rw [List.append_nil]
      constructor
      · exact fun hset => ⟨hbefore, (Option.some.inj hset).symm⟩
      · rintro ⟨-, rfl⟩
        rfl
  | cons option options ih =>
      rw [List.foldlM_cons, List.append_cons]
      constructor
      · intro hset
        obtain ⟨next, hnext, hlater⟩ := Option.bind_eq_some_iff.mp hset
        obtain ⟨hformed, rfl⟩ := (h before option _ hbefore).mp hnext
        exact (ih hformed).mp hlater
      · rintro ⟨hwhole, rfl⟩
        have hformed : WellFormed once valid (before ++ [option]) :=
          ⟨fun o ho => hwhole.valid o (List.mem_append_left _ ho),
            (List.pairwise_append.mp hwhole.once).1⟩
        rw [(h before option _ hbefore).mpr ⟨hformed, rfl⟩]
        exact (ih hformed).mpr ⟨hwhole, rfl⟩

/-- The loop accepts exactly the words of well-formed options, and what it ends with is
the record of them. -/
theorem readOptions_view_iff (hspell : Spelling find word stop)
    (h : Records switch once valid view) {s' : σ} {words rest : List α} :
    readOptions find switch stop (view []) words = .ok (s', rest) ↔
      ∃ options : List (Written ν α), words = options.flatMap (Written.words word) ++ rest ∧
        (∀ w ∈ rest.head?, stop w = true) ∧ WellFormed once valid options ∧
          s' = view options := by
  rw [readOptions_ok_iff hspell]
  have hnil : WellFormed once valid ([] : List (Written ν α)) := ⟨nofun, List.Pairwise.nil⟩
  constructor
  · rintro ⟨options, hwords, hrest, hset⟩
    obtain ⟨hformed, hview⟩ := (foldlM_view_iff h hnil options).mp hset
    exact ⟨options, hwords, hrest, hformed, hview⟩
  · rintro ⟨options, hwords, hrest, hformed, hview⟩
    exact ⟨options, hwords, hrest, (foldlM_view_iff h hnil options).mpr ⟨hformed, hview⟩⟩

/-- A loop that no word stops reads all of them. -/
theorem readOptions_all_iff (hspell : Spelling find word fun _ => false)
    (h : Records switch once valid view) {s' : σ} {words rest : List α} :
    readOptions find switch (fun _ => false) (view []) words = .ok (s', rest) ↔
      ∃ options : List (Written ν α), words = options.flatMap (Written.words word) ∧
        WellFormed once valid options ∧ s' = view options ∧ rest = [] := by
  rw [readOptions_view_iff hspell h]
  constructor
  · rintro ⟨options, hwords, hstop, hformed, hview⟩
    cases rest with
    | nil => exact ⟨options, hwords.trans (List.append_nil _), hformed, hview, rfl⟩
    | cons word rest => exact absurd (hstop word rfl) Bool.false_ne_true
  · rintro ⟨options, hwords, hformed, hview, rfl⟩
    exact ⟨options, hwords.trans (List.append_nil _).symm, nofun, hformed, hview⟩

/-! ## §4  The values of an option -/

section values

variable [DecidableEq ν]

/-- The values of the options of a name, in order. -/
def valuesOf (name : ν) (options : List (Written ν α)) : List α :=
  options.filterMap (Written.valueOf name)

def valueOf? (name : ν) (options : List (Written ν α)) : Option α :=
  (valuesOf name options).head?

theorem valuesOf_append (name : ν) (options options' : List (Written ν α)) :
    valuesOf name (options ++ options') = valuesOf name options ++ valuesOf name options' :=
  List.filterMap_append

theorem mem_valuesOf {name : ν} {value : α} {options : List (Written ν α)} :
    value ∈ valuesOf name options ↔ .valued name value ∈ options := by
  rw [valuesOf, List.mem_filterMap]
  constructor
  · rintro ⟨option, hmem, hvalue⟩
    cases option with
    | flag name' => cases hvalue
    | valued name' value' =>
        have hname : name' = name := by
          by_contra hne
          exact absurd ((if_neg hne).symm.trans hvalue) nofun
        rw [Written.valueOf, if_pos hname] at hvalue
        rw [← hname, ← Option.some.inj hvalue]
        exact hmem
  · exact fun hmem => ⟨_, hmem, if_pos rfl⟩

theorem valuesOf_eq_nil {name : ν} {options : List (Written ν α)}
    (h : ∀ option ∈ options, option.name ≠ name) : valuesOf name options = [] := by
  rw [List.eq_nil_iff_forall_not_mem]
  exact fun value hmem => h _ (mem_valuesOf.mp hmem) rfl

@[simp] theorem valueOf?_append_flag (name name' : ν) (options : List (Written ν α)) :
    valueOf? name (options ++ [.flag name']) = valueOf? name options := by
  rw [valueOf?, valuesOf_append]
  show (valuesOf name options ++ []).head? = _
  rw [List.append_nil]
  rfl

theorem valueOf?_append_of_ne {name name' : ν} (h : name' ≠ name) (options : List (Written ν α))
    (value : α) : valueOf? name (options ++ [.valued name' value]) = valueOf? name options := by
  have hnone : valuesOf name [.valued name' value] = [] :=
    valuesOf_eq_nil fun option hmem => List.mem_singleton.mp hmem ▸ h
  rw [valueOf?, valuesOf_append, hnone, List.append_nil]
  rfl

theorem valueOf?_append_fresh {name : ν} {options : List (Written ν α)}
    (h : ∀ option ∈ options, option.name ≠ name) (value : α) :
    valueOf? name (options ++ [.valued name value]) = some value := by
  have hone : valuesOf name [.valued name value] = [value] := by
    simp [valuesOf, Written.valueOf]
  rw [valueOf?, valuesOf_append, valuesOf_eq_nil h, hone]
  rfl

theorem valueOf?_isSome {name : ν} {options : List (Written ν α)} :
    (valueOf? name options).isSome = true ↔ ∃ value, .valued name value ∈ options := by
  rw [valueOf?, List.isSome_head?]
  constructor
  · intro h
    obtain ⟨value, hmem⟩ := List.exists_mem_of_ne_nil _ (by simpa using h)
    exact ⟨value, mem_valuesOf.mp hmem⟩
  · rintro ⟨value, hmem⟩
    exact List.ne_nil_of_mem (mem_valuesOf.mpr hmem)

theorem mem_of_valueOf? {name : ν} {value : α} {options : List (Written ν α)}
    (h : valueOf? name options = some value) : .valued name value ∈ options :=
  mem_valuesOf.mp (List.mem_of_mem_head? h)

/-- An option that is never a flag has been given exactly if it has a value. -/
theorem given_iff_valueOf? {name : ν} {options : List (Written ν α)}
    (hflag : .flag name ∉ options) :
    (∃ earlier ∈ options, earlier.name = name) ↔ (valueOf? name options).isSome = true := by
  rw [valueOf?_isSome]
  constructor
  · rintro ⟨earlier, hmem, rfl⟩
    cases earlier with
    | flag name => exact absurd hmem hflag
    | valued name value => exact ⟨value, hmem⟩
  · rintro ⟨value, hmem⟩
    exact ⟨_, hmem, rfl⟩

/-- An option for one use has one value at most. -/
theorem WellFormed.valuesOf_length {options : List (Written ν α)} {name : ν}
    (h : WellFormed once valid options) (hname : once name) :
    (valuesOf name options).length ≤ 1 := by
  induction options with
  | nil => exact Nat.zero_le 1
  | cons option options ih =>
      obtain ⟨hfirst, hrest⟩ := List.pairwise_cons.mp h.once
      have hformed : WellFormed once valid options :=
        ⟨fun o ho => h.valid o (List.mem_cons_of_mem _ ho), hrest⟩
      by_cases heq : option.name = name
      · have hnone : valuesOf name options = [] := valuesOf_eq_nil fun later hmem hlater =>
          hfirst later hmem (heq ▸ hname) (heq.trans hlater.symm)
        show (valuesOf name ([option] ++ options)).length ≤ 1
        rw [valuesOf_append, hnone, List.append_nil]
        exact List.length_filterMap_le _ _
      · have hnone : valuesOf name [option] = [] := valuesOf_eq_nil fun o ho =>
          List.mem_singleton.mp ho ▸ heq
        show (valuesOf name ([option] ++ options)).length ≤ 1
        rw [valuesOf_append, hnone, List.nil_append]
        exact ih hformed

theorem WellFormed.mem_iff_valueOf? {options : List (Written ν α)} {name : ν}
    (h : WellFormed once valid options) (hname : once name) {value : α} :
    .valued name value ∈ options ↔ valueOf? name options = some value := by
  refine ⟨fun hmem => ?_, mem_of_valueOf?⟩
  have hvalue := mem_valuesOf.mpr hmem
  have hlength := h.valuesOf_length hname
  unfold valueOf?
  rcases hvalues : valuesOf name options with _ | ⟨first, rest⟩
  · rw [hvalues] at hvalue
    cases hvalue
  · rw [hvalues] at hvalue hlength
    obtain rfl : rest = [] := by simpa using hlength
    rw [List.mem_singleton.mp hvalue]
    rfl

/-- The value of an option for one use does not depend on the order. -/
theorem WellFormed.valueOf?_perm {options options' : List (Written ν α)} {name : ν}
    (h : WellFormed once valid options) (hname : once name) (hperm : options.Perm options') :
    valueOf? name options' = valueOf? name options := by
  have hvalues := hperm.filterMap (Written.valueOf name)
  have hlength := h.valuesOf_length hname
  unfold valueOf?
  unfold valuesOf at hlength ⊢
  rcases hshape : options.filterMap (Written.valueOf name) with _ | ⟨value, rest⟩
  · rw [hshape] at hvalues
    rw [List.nil_perm.mp hvalues]
  · rw [hshape] at hvalues hlength
    obtain rfl : rest = [] := by simpa using hlength
    rw [List.singleton_perm.mp hvalues]

/-- An option for one use is recorded, if the state knows whether it has a value. -/
theorem records_once {β : Type} {name : ν} {refused : ε} {seen : σ → Bool}
    {read : α → Option β} {set : σ → β → σ} (h : switch name = .reading refused seen read set)
    {options : List (Written ν α)} (hformed : WellFormed once valid options) (honce : once name)
    (hflag : .flag name ∉ options)
    (hseen : seen (view options) = (valueOf? name options).isSome) {value : α}
    (hread : (read value).isSome = true ↔ valid (.valued name value))
    (hset : ∀ r, read value = some r → (∀ earlier ∈ options, earlier.name ≠ name) →
      set (view options) r = view (options ++ [.valued name value]))
    (s' : σ) :
    setOption switch (view options) (.valued name value) = some s' ↔
      WellFormed once valid (options ++ [.valued name value]) ∧
        s' = view (options ++ [.valued name value]) := by
  refine records_reading h hformed ?_ hread (fun r hr hnew => hset r hr (hnew honce)) s'
  rw [hseen, ← given_iff_valueOf? hflag]
  exact (and_iff_right honce).symm

end values

end NativeGuard.Data
