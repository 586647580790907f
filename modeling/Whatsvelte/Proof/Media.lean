import Whatsvelte.Spec.Media

/-!
# The media cache

`cache_complete`: as long as a process starts at most `2 ^ 64` downloads, a file under a final name
holds a whole payload that a verified download for its hash produced, two calls in flight use
different `.part` names, no `.part` name is a final one, and a call that has returned a path has
returned one that exists. `part_number_wraps`: one download more, and two calls share a name.

The names come first: a final name has one dot and a `.part` name three. A file is then safe because
the only handles are those of the calls that own a `.part` name (`Good`), and no two names lead to one
file (`Store`).
-/

namespace Whatsvelte.Media

open Function (update update_of_ne update_self)
open List

variable {s t : State} {r r' : Request} {n m : UInt64} {c d : ℕ} {p q p' : Progress} {name : Name}

/-! ## Names -/

theorem nameExt_alphanum {fileName : Option String} {ext : String} (h : nameExt fileName = some ext) :
    ∃ e : List Char, e ≠ [] ∧ e.all Char.isAlphanum ∧ ext = String.ofList (e.map Char.toLower) := by
  cases fileName with
  | none => cases h
  | some =>
    simp only [nameExt] at h
    split at h
    · cases h
    · rename_i stem e he
      split at h
      · cases h
      · rename_i hne
        split at h
        · rename_i hall
          exact ⟨e, fun he => hne (.inr (.inl he)), hall, (Option.some.inj h).symm⟩
        · cases h

theorem isAlphanum_toLower {c : Char} (h : c.isAlphanum = true) : c.toLower.isAlphanum = true := by
  delta Char.toLower
  split
  · rename_i hu
    have hlo := UInt32.le_iff_toNat_le.1 hu.1
    have hhi := UInt32.le_iff_toNat_le.1 hu.2
    simp at hlo hhi
    delta Char.isAlphanum Char.isAlpha Char.isLower
    simp [UInt32.le_iff_toNat_le]
    omega
  · exact h

theorem alphanum_of_all {exts : List String} {e : String}
    (h : exts.all fun e => !e.toList.isEmpty && e.toList.all Char.isAlphanum) (he : e ∈ exts) :
    e.toList ≠ [] ∧ ∀ c ∈ e.toList, c.isAlphanum = true := by
  obtain ⟨hne, hall⟩ := Bool.and_eq_true_iff.1 (all_eq_true.1 h e he)
  exact ⟨by simpa using hne, all_eq_true.1 hall⟩

/-- An extension is not empty, and has letters and digits only. -/
theorem extFor_alphanum (mimetype : Option String) (mediaType : String) (fileName : Option String) :
    (extFor mimetype mediaType fileName).toList ≠ [] ∧
      ∀ c ∈ (extFor mimetype mediaType fileName).toList, c.isAlphanum = true := by
  rw [extFor]
  split
  · rename_i ext h
    split at h
    · obtain ⟨e, hne, hall, rfl⟩ := nameExt_alphanum h
      rw [String.toList_ofList]
      refine ⟨by simpa using hne, fun c hc => ?_⟩
      obtain ⟨a, ha, rfl⟩ := mem_map.1 hc
      exact isAlphanum_toLower (all_eq_true.1 hall a ha)
    · cases h
  · split
    · rename_i pat ext h
      obtain ⟨m, -, hm⟩ := Option.bind_eq_some_iff.1 h
      have hmem : ext ∈ mimeExts.map Prod.snd := mem_map_of_mem (mem_of_find?_eq_some hm)
      exact alphanum_of_all (by decide +kernel) hmem
    · have hmem : defaultExt mediaType ∈ ["mp4", "ogg", "webp", "bin", "jpg"] := by
        rw [defaultExt]
        split_ifs <;> simp
      exact alphanum_of_all (by decide +kernel) hmem

theorem dot_notMem_extFor (mimetype : Option String) (mediaType : String) (fileName : Option String) :
    '.' ∉ (extFor mimetype mediaType fileName).toList := by
  intro h
  have := (extFor_alphanum mimetype mediaType fileName).2 '.' h
  revert this
  decide

theorem dot_notMem_stem (bytes : Bytes) : '.' ∉ base64Url bytes := by
  intro h
  have := mem_base64Alphabet h
  revert this
  decide +kernel

theorem dot_notMem_repr (n : ℕ) : '.' ∉ n.repr.toList := by
  intro h
  rw [Nat.repr, String.toList_ofList] at h
  have := Nat.isDigit_of_mem_toDigits (by decide) (by decide) h
  revert this
  decide

/-- A final name tells its hash. -/
theorem sha_of_path_eq (h : r.path = r'.path) : r.fileSha256 = r'.fileSha256 :=
  base64Url_injective (append_cons_inj_left (dot_notMem_stem _) (dot_notMem_stem _) h).1

/-- A `.part` name tells its number. -/
theorem seq_of_tmp_eq (h : r.tmp n = r'.tmp m) : n = m := by
  have hpart : r.path ++ '.' :: n.toNat.repr.toList = r'.path ++ '.' :: m.toNat.repr.toList := by
    have htmp : r.path ++ '.' :: (n.toNat.repr.toList ++ ".part".toList) =
        r'.path ++ '.' :: (m.toNat.repr.toList ++ ".part".toList) := h
    rw [← cons_append, ← cons_append, ← append_assoc, ← append_assoc] at htmp
    exact append_cancel_right htmp
  have hrepr := (append_cons_inj_right (dot_notMem_repr _) (dot_notMem_repr _) hpart).2
  exact UInt64.toNat_inj.1 (repr_toList_injective hrepr)

theorem count_dot_path (r : Request) : r.path.count '.' = 1 := by
  rw [Request.path, count_append, count_cons_self,
    count_eq_zero_of_not_mem (dot_notMem_stem _),
    count_eq_zero_of_not_mem (dot_notMem_extFor _ _ _)]

theorem count_dot_tmp (r : Request) (n : UInt64) : (r.tmp n).count '.' = 3 := by
  rw [Request.tmp, count_append, count_cons_self, count_append, count_dot_path,
    count_eq_zero_of_not_mem (dot_notMem_repr _)]
  rfl

theorem tmp_ne_path (r r' : Request) (n : UInt64) : r.tmp n ≠ r'.path := by
  intro h
  have := count_dot_tmp r n
  rw [h, count_dot_path] at this
  omega

/-! ## Files -/

/-- No two names lead to one file, and a final name leads to a verified payload. -/
structure Store (s : State) : Prop where
  named : ∀ x y i, s.dir x = some i → s.dir y = some i → x = y
  present : ∀ x i, s.dir x = some i → i < s.files.length
  final : ∀ (r : Request) (i : ℕ) b, s.dir r.path = some i → s.files[i]? = some b →
    (r.fileSha256, b) ∈ s.verified

/-- What happens under one name, which is not a final one, is not seen under the others. -/
structure Frame (s t : State) (name : Name) : Prop where
  dir : ∀ x, x ≠ name → t.dir x = s.dir x
  files : ∀ x (i : ℕ), x ≠ name → s.dir x = some i → t.files[i]? = s.files[i]?

theorem Store.set (h : Store s) {i : ℕ} {b : Bytes} (hi : s.dir name = some i)
    (hd : t.dir = s.dir) (hf : t.files = s.files.set i b) : Frame s t name := by
  refine ⟨fun x _ => by rw [hd], fun x j hx hj => ?_⟩
  have hne : i ≠ j := by
    rintro rfl
    exact hx (h.named x name i hj hi)
  rw [hf, getElem?_set_ne hne]

/-- The store is sound again if the frame of a `.part` name is kept and its own entry is sound. -/
theorem Store.of_frame (h : Store s) (hf : Frame s t (r.tmp n)) (hv : s.verified ⊆ t.verified)
    (hlen : s.files.length ≤ t.files.length)
    (hown : ∀ i, t.dir (r.tmp n) = some i → i < t.files.length ∧ ∀ x, x ≠ r.tmp n → s.dir x ≠ some i) :
    Store t where
  named x y i hx hy := by
    by_cases hxn : x = r.tmp n
    · by_cases hyn : y = r.tmp n
      · rw [hxn, hyn]
      · subst hxn
        rw [hf.dir y hyn] at hy
        exact absurd hy ((hown i hx).2 y hyn)
    · rw [hf.dir x hxn] at hx
      by_cases hyn : y = r.tmp n
      · subst hyn
        exact absurd hx ((hown i hy).2 x hxn)
      · rw [hf.dir y hyn] at hy
        exact h.named x y i hx hy
  present x i hx := by
    by_cases hxn : x = r.tmp n
    · subst hxn
      exact (hown i hx).1
    · rw [hf.dir x hxn] at hx
      exact lt_of_lt_of_le (h.present x i hx) hlen
  final r' i b hi hb := by
    have hne : r'.path ≠ r.tmp n := (tmp_ne_path r r' n).symm
    rw [hf.dir _ hne] at hi
    rw [hf.files _ i hne hi] at hb
    exact hv (h.final r' i b hi hb)

/-! ## Calls -/

/-- The `.part` name that the call uses. -/
def Progress.part : Progress → Option (Request × UInt64)
  | .creating r seq => some (r, seq)
  | .downloading r seq _ _ => some (r, seq)
  | .syncing r seq _ _ => some (r, seq)
  | .moving r seq _ _ => some (r, seq)
  | .discarding r seq => some (r, seq)
  | .losing r seq => some (r, seq)
  | _ => none

/-- The call has a permit. -/
def Progress.holds : Progress → Bool
  | .start _ => false
  | .acquiring _ => false
  | .returned _ => false
  | _ => true

/-- What a call relies on: its file is under its name and holds what it has written, a payload that was
verified stays so, and a path that was returned exists. -/
def Good (s : State) : Progress → Prop
  | .downloading r seq file written => s.dir (r.tmp seq) = some file ∧ s.files[file]? = some written
  | .syncing r seq file payload => s.dir (r.tmp seq) = some file ∧ s.files[file]? = some payload ∧
      (r.fileSha256, payload) ∈ s.verified
  | .moving r seq file payload => s.dir (r.tmp seq) = some file ∧ s.files[file]? = some payload ∧
      (r.fileSha256, payload) ∈ s.verified
  | .returned (some name) => (∃ r : Request, name = r.path) ∧ s.exists name = true
  | _ => True

/-- A call is not disturbed by a change that leaves its file, what was verified and the final names. -/
theorem Good.mono (h : Good s p) (hv : s.verified ⊆ t.verified)
    (hpath : ∀ r : Request, s.exists r.path = true → t.exists r.path = true)
    (hpart : ∀ (r : Request) m (file : ℕ) b, p.part = some (r, m) → s.dir (r.tmp m) = some file →
      s.files[file]? = some b → t.dir (r.tmp m) = some file ∧ t.files[file]? = some b) : Good t p := by
  cases p with
  | downloading r m file b => exact hpart r m file b rfl h.1 h.2
  | syncing r m file b | moving r m file b =>
    obtain ⟨hd, hb⟩ := hpart r m file b rfl h.1 h.2.1
    exact ⟨hd, hb, hv h.2.2⟩
  | returned result =>
    cases result with
    | none => trivial
    | some =>
      obtain ⟨⟨r, rfl⟩, he⟩ := h
      exact ⟨⟨r, rfl⟩, hpath r he⟩
  | _ => trivial

theorem Good.of_frame (h : Good s p) (hf : Frame s t (r.tmp n)) (hv : s.verified ⊆ t.verified)
    (hp : ∀ r' m, p.part = some (r', m) → n ≠ m) : Good t p := by
  refine h.mono hv (fun r' he => ?_) fun r' m file b hm hd hb => ?_
  · rwa [State.exists, hf.dir _ (tmp_ne_path r r' n).symm]
  · have hne : r'.tmp m ≠ r.tmp n := fun he => hp r' m hm (seq_of_tmp_eq he).symm
    exact ⟨by rw [hf.dir _ hne, hd], by rw [hf.files _ file hne hd, hb]⟩

structure Inv (s : State) : Prop where
  store : Store s
  good : ∀ (c : ℕ) p, s.calls[c]? = some p → Good s p
  counter : s.partSeq.toNat = s.started % 2 ^ 64
  below : ∀ (c : ℕ) p r n, s.calls[c]? = some p → p.part = some (r, n) → n.toNat < s.started
  distinct : ∀ (c d : ℕ) p q r r' n m, c ≠ d → s.calls[c]? = some p → s.calls[d]? = some q →
    p.part = some (r, n) → q.part = some (r', m) → n ≠ m

theorem inv_init : Inv State.init where
  store := ⟨fun _ _ _ h => (nomatch h), fun _ _ h => (nomatch h), fun _ _ _ h => (nomatch h)⟩
  good _ _ h := nomatch h
  counter := rfl
  below _ _ _ _ h := nomatch h
  distinct _ _ _ _ _ _ _ _ _ h := nomatch h

/-! ## Steps -/

theorem calls_goto (hc : s.calls[c]? = some p) (p' : Progress) (d : ℕ) :
    (s.goto c p').calls[d]? = if c = d then some p' else s.calls[d]? := by
  rw [State.goto, getElem?_set']
  refine ite_congr rfl (fun hcd => ?_) fun _ => rfl
  rw [← hcd, hc]
  rfl

theorem countP_holds_goto (hc : s.calls[c]? = some p) (p' : Progress) :
    (s.goto c p').calls.countP Progress.holds + p.holds.toNat =
      s.calls.countP Progress.holds + p'.holds.toNat := by
  obtain ⟨hlt, hget⟩ := List.getElem?_eq_some_iff.1 hc
  rw [State.goto, countP_set hlt, hget]
  cases hp : p.holds with
  | false => cases p'.holds <;> simp
  | true =>
    have hpos : 0 < s.calls.countP Progress.holds := countP_pos_iff.2 ⟨p, mem_of_getElem? hc, hp⟩
    cases p'.holds <;> simp only [Bool.toNat_true, Bool.toNat_false, if_true, if_false,
      Bool.false_eq_true] <;> omega

/-- Call `c` goes on to `p'`; a number that it takes is a new one. -/
theorem Inv.goto (h : Inv s) (hc : s.calls[c]? = some p) (p' : Progress) (ht : t.calls = (s.goto c p').calls)
    (hstore : Store t) (hothers : ∀ (d : ℕ) q, c ≠ d → s.calls[d]? = some q → Good t q)
    (hown : Good t p') (hcounter : t.partSeq.toNat = t.started % 2 ^ 64) (hstarted : s.started ≤ t.started)
    (hpart : ∀ r n, p'.part = some (r, n) →
      p.part = some (r, n) ∨ s.started ≤ n.toNat ∧ n.toNat < t.started) : Inv t := by
  have hcalls := calls_goto hc p'
  rw [← ht] at hcalls
  -- a number of another call is an old one
  have hnew : ∀ (d : ℕ) q r r' n m, c ≠ d → s.calls[d]? = some q → p'.part = some (r, n) →
      q.part = some (r', m) → n ≠ m := by
    intro d q r r' n m hcd hd hn hm
    rcases hpart r n hn with hp | ⟨hle, -⟩
    · exact h.distinct c d p q r r' n m hcd hc hd hp hm
    · have := h.below d q r' m hd hm
      rintro rfl
      omega
  refine ⟨hstore, fun d q hd => ?_, hcounter, fun d q r n hd hq => ?_, ?_⟩
  · rw [hcalls] at hd
    split at hd
    · cases hd
      exact hown
    · exact hothers d q (by assumption) hd
  · rw [hcalls] at hd
    split at hd
    · cases hd
      rcases hpart r n hq with hp | ⟨-, hlt⟩
      · exact lt_of_lt_of_le (h.below c p r n hc hp) hstarted
      · exact hlt
    · exact lt_of_lt_of_le (h.below d q r n hd hq) hstarted
  · intro d e q q' r r' n m hde hd he hq hq'
    rw [hcalls] at hd he
    split at hd
    · rename_i hcd
      cases hd
      rw [if_neg (by rwa [hcd])] at he
      exact hnew e q' r r' n m (by rwa [hcd]) he hq hq'
    · rename_i hcd
      split at he
      · cases he
        exact (hnew d q r' r m n hcd hd hq' hq).symm
      · exact h.distinct d e q q' r r' n m hde hd he hq hq'

/-- A step that leaves the files alone. -/
theorem Inv.goto_same (h : Inv s) (hc : s.calls[c]? = some p) (p' : Progress)
    (ht : t.calls = (s.goto c p').calls)
    (hdir : t.dir = s.dir) (hfiles : t.files = s.files) (hv : s.verified ⊆ t.verified)
    (hown : Good t p') (hcounter : t.partSeq.toNat = t.started % 2 ^ 64) (hstarted : s.started ≤ t.started)
    (hpart : ∀ r n, p'.part = some (r, n) →
      p.part = some (r, n) ∨ s.started ≤ n.toNat ∧ n.toNat < t.started) : Inv t := by
  refine h.goto hc p' ht ?_ (fun d q _ hd => ?_) hown hcounter hstarted hpart
  · refine ⟨?_, ?_, fun r i b hi hb => ?_⟩
    · rw [hdir]
      exact h.store.named
    · rw [hdir, hfiles]
      exact h.store.present
    · rw [hdir] at hi
      rw [hfiles] at hb
      exact hv (h.store.final r i b hi hb)
  · exact (h.good d q hd).mono hv (fun r he => by rwa [State.exists, hdir]) fun r m file b _ hd hb =>
      ⟨by rw [hdir, hd], by rw [hfiles, hb]⟩

/-- A step that changes what is under the call's own `.part` name only. -/
theorem Inv.goto_frame (h : Inv s) (hc : s.calls[c]? = some p) (p' : Progress)
    (hp : p.part = some (r, n)) (ht : t.calls = (s.goto c p').calls) (hf : Frame s t (r.tmp n))
    (hv : t.verified = s.verified) (hlen : s.files.length ≤ t.files.length)
    (hentry : ∀ i, t.dir (r.tmp n) = some i → i < t.files.length ∧ ∀ x, x ≠ r.tmp n → s.dir x ≠ some i)
    (hown : Good t p') (hseq : t.partSeq = s.partSeq) (hst : t.started = s.started)
    (hpart : p'.part = some (r, n) ∨ p'.part = none) : Inv t := by
  have hsub : s.verified ⊆ t.verified := by rw [hv]; exact List.Subset.refl _
  refine h.goto hc p' ht (h.store.of_frame hf hsub hlen hentry) (fun d q hcd hd => ?_) hown ?_
    (le_of_eq hst.symm) fun r' m hm => ?_
  · exact (h.good d q hd).of_frame hf hsub fun r' m hq => h.distinct c d p q r r' n m hcd hc hd hp hq
  · rw [hseq, hst]
    exact h.counter
  · rcases hpart with hpart | hpart
    · rw [hm] at hpart
      exact .inl (by rw [hp, hpart])
    · rw [hm] at hpart
      cases hpart

variable {sha256 : Bytes → Bytes} {ok : Bool} {file : ℕ} {b : Bytes}

/-- The process has taken no number twice. -/
def Fits (sha256 : Bytes → Bytes) (s : State) (a : Action) : Prop :=
  (s.step sha256 a).started ≤ 2 ^ 64

instance (sha256 : Bytes → Bytes) (s : State) (a : Action) : Decidable (Fits sha256 s a) :=
  inferInstanceAs (Decidable (_ ≤ _))

/-- A call that was in no file's way goes on without one. -/
theorem Inv.goto_plain (h : Inv s) (hc : s.calls[c]? = some p) (p' : Progress) (hp' : p'.part = none)
    (hown : Good (s.goto c p') p') (permits : ℕ) : Inv { s.goto c p' with permits := permits } := by
  refine h.goto_same hc p' rfl rfl rfl (List.Subset.refl _) ?_ h.counter le_rfl fun r n hn => ?_
  · exact hown
  · rw [hp'] at hn
    cases hn

/-- A call goes on with its `.part` name. -/
theorem Inv.goto_part (h : Inv s) (hc : s.calls[c]? = some p) (p' : Progress) (hp : p'.part = p.part)
    (hown : Good s p') : Inv (s.goto c p') := by
  refine h.goto_same hc p' rfl rfl rfl (List.Subset.refl _) ?_ h.counter le_rfl fun r n hn =>
    .inl (hp.symm.trans hn)
  exact hown.mono (List.Subset.refl _) (fun _ he => he) fun _ _ _ _ _ hd hb => ⟨hd, hb⟩

theorem good_path (hs : s.exists r.path = true) : Good s (.returned (some r.path)) := ⟨⟨r, rfl⟩, hs⟩

theorem inv_start (h : Inv s) {args : Args} (hc : s.calls[c]? = some (.start args)) :
    Inv (resume sha256 s c ok (.start args)) := by
  simp only [resume]
  split
  · split_ifs with hok hs
    · exact h.goto_plain hc (.returned none) rfl trivial s.permits
    · exact h.goto_plain hc (.returned (some _)) rfl (good_path hs) s.permits
    · exact h.goto_plain hc (.acquiring _) rfl trivial s.permits
  · exact h.goto_plain hc (.returned none) rfl trivial s.permits

theorem inv_acquiring (h : Inv s) (hc : s.calls[c]? = some (.acquiring r)) :
    Inv (resume sha256 s c ok (.acquiring r)) := by
  rw [resume]
  split
  · exact h
  · exact h.goto_plain hc (.rechecking r) rfl trivial (s.permits - 1)

theorem inv_rechecking (h : Inv s) (hc : s.calls[c]? = some (.rechecking r)) :
    Inv (resume sha256 s c ok (.rechecking r)) := by
  rw [resume]
  split
  · rename_i hs
    exact h.goto_plain hc (.returned (some _)) rfl (good_path hs) (s.permits + 1)
  · exact h.goto_plain hc (.numbering r) rfl trivial s.permits

theorem inv_checking (h : Inv s) (hc : s.calls[c]? = some (.checking r)) :
    Inv (resume sha256 s c ok (.checking r)) := by
  rw [resume]
  split
  · rename_i hs
    exact h.goto_plain hc (.returned (some _)) rfl (good_path hs) (s.permits + 1)
  · exact h.goto_plain hc (.returned none) rfl trivial (s.permits + 1)

/-- The number is new, because the counter has not come round. -/
theorem inv_numbering (h : Inv s) (hc : s.calls[c]? = some (.numbering r))
    (hfits : s.started + 1 ≤ 2 ^ 64) : Inv (resume sha256 s c ok (.numbering r)) := by
  have hlt : s.started < 2 ^ 64 := hfits
  have hcounter := h.counter
  rw [Nat.mod_eq_of_lt hlt] at hcounter
  refine h.goto_same hc (.creating r s.partSeq) rfl rfl rfl (List.Subset.refl _) trivial ?_
    (Nat.le_succ _) fun r' n hn => ?_
  · show (s.partSeq + 1).toNat = (s.started + 1) % 2 ^ 64
    rw [UInt64.toNat_add, hcounter]
    rfl
  · cases hn
    exact .inr ⟨hcounter.ge, by rw [hcounter]; exact Nat.lt_succ_self _⟩

theorem inv_creating (h : Inv s) (hc : s.calls[c]? = some (.creating r n)) :
    Inv (resume sha256 s c ok (.creating r n)) := by
  rw [resume]
  split
  · cases hi : s.dir (r.tmp n) with
    | some i =>
      -- the name is left over from a process that died
      simp only [State.create, hi]
      have hlt := h.store.present _ i hi
      refine h.goto_frame hc (.downloading r n i []) rfl rfl (h.store.set hi rfl rfl) rfl
        (length_set ..).ge (fun j hj => ?_) ⟨hi, ?_⟩ rfl rfl (.inl rfl)
      · cases hi.symm.trans hj
        exact ⟨by rwa [← length_set] at hlt, fun x hx hxi => hx (h.store.named x _ i hxi hi)⟩
      · exact getElem?_set_self hlt
    | none =>
      simp only [State.create, hi]
      have hold : ∀ x i, s.dir x = some i → i ≠ s.files.length := fun x i hx =>
        (h.store.present x i hx).ne
      refine h.goto_frame hc (.downloading r n s.files.length []) rfl rfl ?_ rfl ?_
        (fun j hj => ?_) ⟨?_, ?_⟩ rfl rfl (.inl rfl)
      · refine ⟨fun x hx => update_of_ne hx _ _, fun x i hx hxi => ?_⟩
        exact getElem?_append_left (h.store.present x i hxi)
      · exact (length_append ..).ge.trans' (Nat.le_add_right _ _)
      · have hj : update s.dir (r.tmp n) (some s.files.length) (r.tmp n) = some j := hj
        rw [update_self] at hj
        cases hj
        exact ⟨by simp [State.goto], fun x _ hx => hold x _ hx rfl⟩
      · exact update_self _ _ _
      · simp [State.goto]
  · exact h.goto_plain hc (.returned none) rfl trivial (s.permits + 1)

/-- The download ends; what has been written is what the library has verified. -/
theorem inv_downloading (h : Inv s) (hc : s.calls[c]? = some (.downloading r n file b)) :
    Inv (resume sha256 s c ok (.downloading r n file b)) := by
  obtain ⟨hd, hb⟩ := h.good c _ hc
  rw [resume]
  split
  · refine h.goto_same hc (.syncing r n file b) rfl rfl rfl (subset_cons_self _ _) ?_
      h.counter le_rfl fun r' m hm => .inl hm
    exact ⟨hd, hb, mem_cons_self⟩
  · exact h.goto_part hc (.discarding r n) rfl trivial

theorem inv_syncing (h : Inv s) (hc : s.calls[c]? = some (.syncing r n file b)) :
    Inv (resume sha256 s c ok (.syncing r n file b)) := by
  rw [resume]
  split
  · have hg := h.good c _ hc
    exact h.goto_part hc (.moving r n file b) rfl hg
  · exact h.goto_part hc (.discarding r n) rfl trivial

theorem Frame.remove (s : State) (name : Name) (ok : Bool) : Frame s (s.remove name ok) name := by
  cases ok with
  | false => exact ⟨fun _ _ => rfl, fun _ _ _ _ => rfl⟩
  | true => exact ⟨fun x hx => update_of_ne hx _ _, fun _ _ _ _ => rfl⟩

/-- What is left of a `.part` name that was to be removed. -/
theorem remove_entry (h : Store s) {i : ℕ} (hi : (s.remove name ok).dir name = some i) :
    i < s.files.length ∧ ∀ x, x ≠ name → s.dir x ≠ some i := by
  cases ok with
  | false => exact ⟨h.present _ i hi, fun x hx hxi => hx (h.named x name i hxi hi)⟩
  | true =>
    have hi : update s.dir name none name = some i := hi
    rw [update_self] at hi
    cases hi

/-- The call gives its `.part` name up. -/
theorem Inv.goto_remove (h : Inv s) (hc : s.calls[c]? = some p) (ok : Bool) (p' : Progress)
    (hp : p.part = some (r, n)) (hp' : p'.part = none) (hown : ∀ t, Good t p') (permits : ℕ) :
    Inv { (s.remove (r.tmp n) ok).goto c p' with permits := permits } := by
  have hrem := Frame.remove s (r.tmp n) ok
  have hentry : ∀ i, (s.remove (r.tmp n) ok).dir (r.tmp n) = some i →
      i < s.files.length ∧ ∀ x, x ≠ r.tmp n → s.dir x ≠ some i := fun _ => remove_entry h.store
  cases ok <;>
    exact h.goto_frame hc p' hp rfl ⟨hrem.dir, hrem.files⟩ rfl le_rfl hentry (hown _) rfl rfl
      (.inr hp')

theorem inv_discarding (h : Inv s) (hc : s.calls[c]? = some (.discarding r n)) :
    Inv (resume sha256 s c ok (.discarding r n)) := by
  have hinv := h.goto_remove hc ok (.returned none) rfl rfl (fun _ => trivial) (s.permits + 1)
  cases ok <;> exact hinv

theorem inv_losing (h : Inv s) (hc : s.calls[c]? = some (.losing r n)) :
    Inv (resume sha256 s c ok (.losing r n)) := by
  have hinv := h.goto_remove hc ok (.checking r) rfl rfl (fun _ => trivial) s.permits
  cases ok <;> exact hinv

section Rename

variable (h : Inv s) (hd : s.dir (r.tmp n) = some file) (hb : s.files[file]? = some b)
  (hv : (r.fileSha256, b) ∈ s.verified)

/-- The directory after the rename. -/
theorem dir_rename (s : State) (r : Request) (n : UInt64) (file : ℕ) (x : Name) :
    update (update s.dir (r.tmp n) none) r.path (some file) x =
      if x = r.path then some file else if x = r.tmp n then none else s.dir x := by
  by_cases hx : x = r.path
  · rw [if_pos hx, hx, update_self]
  · rw [if_neg hx, update_of_ne hx]
    by_cases hx' : x = r.tmp n
    · rw [if_pos hx', hx', update_self]
    · rw [if_neg hx', update_of_ne hx']

include h hd hb hv in
theorem store_rename (ht : ∀ x, t.dir x = if x = r.path then some file else
    if x = r.tmp n then none else s.dir x) (hfiles : t.files = s.files)
    (hver : t.verified = s.verified) : Store t := by
  have hlt := h.store.present _ file hd
  -- another name does not lead to the file
  have hother : ∀ x, x ≠ r.tmp n → s.dir x ≠ some file := fun x hx hxi =>
    hx (h.store.named x _ file hxi hd)
  have hsome : ∀ x i, t.dir x = some i →
      x = r.path ∧ i = file ∨ x ≠ r.path ∧ x ≠ r.tmp n ∧ s.dir x = some i := by
    intro x i hx
    rw [ht] at hx
    split_ifs at hx with h1 h2
    · exact .inl ⟨h1, (Option.some.inj hx).symm⟩
    · exact .inr ⟨h1, h2, hx⟩
  refine ⟨fun x y i hx hy => ?_, fun x i hx => ?_, fun r' i b' hi hb' => ?_⟩
  · rcases hsome x i hx with ⟨rfl, rfl⟩ | ⟨-, hxt, hxs⟩
    · rcases hsome y i hy with ⟨rfl, -⟩ | ⟨-, hyt, hys⟩
      · rfl
      · exact absurd hys (hother y hyt)
    · rcases hsome y i hy with ⟨rfl, rfl⟩ | ⟨-, -, hys⟩
      · exact absurd hxs (hother x hxt)
      · exact h.store.named x y i hxs hys
  · rw [hfiles]
    rcases hsome x i hx with ⟨-, rfl⟩ | ⟨-, -, hxs⟩
    · exact hlt
    · exact h.store.present x i hxs
  · rw [hfiles] at hb'
    rw [hver]
    rcases hsome r'.path i hi with ⟨hp, rfl⟩ | ⟨-, -, hxs⟩
    · rw [hb] at hb'
      cases hb'
      rwa [sha_of_path_eq hp]
    · exact h.store.final r' i b' hxs hb'

/-- A call is not disturbed by the rename of another. -/
theorem Good.rename (hg : Good s q) (ht : ∀ x, t.dir x = if x = r.path then some file else
    if x = r.tmp n then none else s.dir x) (hfiles : t.files = s.files)
    (hver : t.verified = s.verified) (hq : ∀ r' m, q.part = some (r', m) → n ≠ m) : Good t q := by
  refine hg.mono (by rw [hver]; exact List.Subset.refl _) (fun r' he => ?_)
    fun r' m i b hm hd hb => ⟨?_, by rw [hfiles, hb]⟩
  · rw [State.exists, ht]
    split_ifs with h1 h2
    · rfl
    · exact absurd h2.symm (tmp_ne_path r r' n)
    · exact he
  · rw [ht, if_neg (tmp_ne_path r' r m), if_neg fun he => hq r' m hm (seq_of_tmp_eq he).symm, hd]

end Rename

theorem inv_moving (h : Inv s) (hc : s.calls[c]? = some (.moving r n file b)) :
    Inv (resume sha256 s c ok (.moving r n file b)) := by
  obtain ⟨hd, hb, hv⟩ := h.good c _ hc
  cases ok with
  | false => exact h.goto_part hc (.losing r n) rfl trivial
  | true =>
    simp only [resume, hd]
    refine h.goto hc (.returned (some r.path)) rfl ?_ (fun d q hcd hq => ?_) ?_ h.counter le_rfl
      fun r' m hm => nomatch hm
    · exact store_rename h hd hb hv (dir_rename s r n file) rfl rfl
    · exact (h.good d q hq).rename (dir_rename s r n file) rfl rfl fun r' m hm =>
        h.distinct c d _ q r r' n m hcd hc hq rfl hm
    · refine good_path ?_
      rw [State.exists]
      exact (congrArg Option.isSome (dir_rename s r n file r.path)).trans (by rw [if_pos rfl]; rfl)

theorem inv_write (h : Inv s) (hc : s.calls[c]? = some (.downloading r n file b)) (b' : Bytes) :
    Inv ({ s with files := s.files.set file b' }.goto c (.downloading r n file b')) := by
  obtain ⟨hd, -⟩ := h.good c _ hc
  have hlt := h.store.present _ file hd
  refine h.goto_frame hc (.downloading r n file b') rfl rfl (h.store.set hd rfl rfl) rfl
    (length_set ..).ge (fun j hj => ?_) ⟨hd, getElem?_set_self hlt⟩ rfl rfl (.inl rfl)
  cases hd.symm.trans hj
  exact ⟨by rwa [← length_set] at hlt, fun x hx hxi => hx (h.store.named x _ file hxi hd)⟩

theorem inv_call (h : Inv s) (args : Args) : Inv { s with calls := s.calls ++ [.start args] } := by
  have hget : ∀ (d : ℕ) q, (s.calls ++ [Progress.start args])[d]? = some q →
      s.calls[d]? = some q ∨ q = .start args := by
    intro d q hd
    rw [getElem?_append] at hd
    split at hd
    · exact .inl hd
    · exact .inr (mem_singleton.1 (mem_of_getElem? hd))
  refine ⟨{ h.store with }, fun d q hd => ?_, h.counter,
    fun d q r n hd hq => ?_, fun d e q q' r r' n m hde hd he hq hq' => ?_⟩
  · rcases hget d q hd with hd | rfl
    · have hg := h.good d q hd
      cases q <;> exact hg
    · trivial
  · rcases hget d q hd with hd | rfl
    · exact h.below d q r n hd hq
    · cases hq
  · rcases hget d q hd with hd | rfl
    · rcases hget e q' he with he | rfl
      · exact h.distinct d e q q' r r' n m hde hd he hq hq'
      · cases hq'
    · cases hq

theorem inv_crash (h : Inv s) : Inv { s with
    calls := [], permits := MAX_CONCURRENT_DOWNLOADS, partSeq := 0, started := 0 } where
  store := { h.store with }
  good _ _ hd := nomatch hd
  counter := rfl
  below _ _ _ _ hd := nomatch hd
  distinct _ _ _ _ _ _ _ _ _ hd := nomatch hd

theorem inv_step (h : Inv s) (a : Action) (hfits : Fits sha256 s a) : Inv (s.step sha256 a) := by
  cases a with
  | call args => exact inv_call h args
  | crash => exact inv_crash h
  | write c bytes =>
    simp only [State.step]
    split
    · rename_i hc
      exact inv_write h hc bytes
    · exact h
  | poll c =>
    cases hc : s.calls[c]? with
    | none => simpa only [State.step, hc] using h
    | some p =>
      simp only [State.step, hc]
      cases p with
      | start => exact inv_start h hc
      | acquiring => exact inv_acquiring h hc
      | rechecking => exact inv_rechecking h hc
      | numbering =>
        simp only [Fits, State.step, hc] at hfits
        exact inv_numbering h hc hfits
      | creating => exact inv_creating h hc
      | downloading => exact inv_downloading h hc
      | syncing => exact inv_syncing h hc
      | moving => exact inv_moving h hc
      | discarding => exact inv_discarding h hc
      | losing => exact inv_losing h hc
      | checking => exact inv_checking h hc
      | returned => exact h

/-! ## The result -/

/-- A payload is recorded only with its hash. -/
theorem verified_resume (sha256 : Bytes → Bytes) (s : State) (c : ℕ) (ok : Bool) (p : Progress) :
    (resume sha256 s c ok p).verified = s.verified ∨
      ∃ e, (resume sha256 s c ok p).verified = e :: s.verified ∧ sha256 e.2 = e.1 := by
  cases p with
  | downloading =>
    rw [resume]
    split
    · rename_i hok
      exact .inr ⟨_, rfl, of_decide_eq_true (Bool.and_eq_true_iff.1 hok).2⟩
    · exact .inl rfl
  | start =>
    left
    simp only [resume]
    split
    · split_ifs <;> rfl
    · rfl
  | creating r n =>
    left
    rw [resume]
    split
    · cases hd : s.dir (r.tmp n) <;> simp only [State.create, hd] <;> rfl
    · rfl
  | moving r n =>
    left
    cases ok <;> cases hd : s.dir (r.tmp n) <;> simp only [resume, hd] <;> rfl
  | discarding | losing => cases ok <;> exact .inl rfl
  | acquiring | rechecking | syncing =>
    rw [resume]
    split <;> exact .inl rfl
  | _ => exact .inl rfl

theorem hashed_step (sha256 : Bytes → Bytes) (hs : ∀ e ∈ s.verified, sha256 e.2 = e.1) (a : Action) :
    ∀ e ∈ (s.step sha256 a).verified, sha256 e.2 = e.1 := by
  cases a with
  | poll c ok =>
    cases hc : s.calls[c]? with
    | none => simpa only [State.step, hc] using hs
    | some p =>
      simp only [State.step, hc]
      rcases verified_resume sha256 s c ok p with hv | ⟨e, hv, he⟩
      · rwa [hv]
      · rw [hv]
        exact forall_mem_cons.2 ⟨he, hs⟩
  | write =>
    simp only [State.step]
    split <;> exact hs
  | _ => exact hs

theorem inv_of_run (sha256 : Bytes → Bytes) {as : List Action}
    (h : Along (State.step sha256) (Fits sha256) State.init as) :
    Inv (run (State.step sha256) State.init as) :=
  h.inv (fun _ a hi hf => inv_step hi a hf) inv_init

/-- The `.part` name of a call. -/
def Progress.tmp (p : Progress) : Option Name := p.part.map fun (r, n) => r.tmp n

/-- **The cache never serves partial content**, as long as no process starts more than `2 ^ 64`
downloads. Whatever calls run at once, fail or die with the process: (1) a file under a final name holds
a payload that a verified download for its hash produced; (2) two calls in flight use different `.part`
names; (3) no `.part` name is a final one; (4) a path that a call has returned exists. -/
theorem cache_complete (sha256 : Bytes → Bytes) (as : List Action)
    (h : Along (State.step sha256) (Fits sha256) State.init as) :
    let s := run (State.step sha256) State.init as
    (∀ (r : Request) i, s.dir r.path = some i →
      ∃ b, s.files[i]? = some b ∧ (r.fileSha256, b) ∈ s.verified ∧ sha256 b = r.fileSha256) ∧
    (∀ (c d : ℕ) p q name, c ≠ d → s.calls[c]? = some p → s.calls[d]? = some q →
      p.tmp = some name → q.tmp ≠ some name) ∧
    (∀ (r r' : Request) n, r.tmp n ≠ r'.path) ∧
    ∀ (c : ℕ) name, s.calls[c]? = some (.returned (some name)) → s.exists name = true := by
  intro s
  have hi : Inv s := inv_of_run sha256 h
  have hhash : ∀ e ∈ s.verified, sha256 e.2 = e.1 :=
    run_inv (I := fun s : State => ∀ e ∈ s.verified, sha256 e.2 = e.1)
      (fun _ a hs => hashed_step sha256 hs a) (List.forall_mem_nil _) as
  refine ⟨fun r i hd => ?_, fun c d p q name hcd hc hd hp hq => ?_, fun r r' n => tmp_ne_path r r' n,
    fun c name hc => (hi.good c _ hc).2⟩
  · have hlt := hi.store.present _ i hd
    have hb : s.files[i]? = some s.files[i] := List.getElem?_eq_getElem hlt
    have hv := hi.store.final r i _ hd hb
    exact ⟨_, hb, hv, hhash _ hv⟩
  · obtain ⟨⟨r, n⟩, hpn, rfl⟩ := Option.map_eq_some_iff.1 hp
    obtain ⟨⟨r', m⟩, hqm, he⟩ := Option.map_eq_some_iff.1 hq
    exact hi.distinct d c q p r' r m n hcd.symm hd hc hqm hpn (seq_of_tmp_eq he)

/-- A picture, its descriptor and the calls of a download that ends well, for the hash `id`. -/
def photo : Request := ⟨[1, 2, 3], "image", some "image/png", none⟩

def photoArgs : Args := ⟨some [], some [1, 2, 3], some [], "image", some "image/png", none⟩

def download : List Action :=
  [.call photoArgs, .poll 0 true, .poll 0 true, .poll 0 true, .poll 0 true, .poll 0 true,
    .write 0 [1], .write 0 [1, 2, 3], .poll 0 true, .poll 0 true, .poll 0 true]

theorem cache_complete_download :
    Along (State.step id) (Fits id) State.init download ∧
    (run (State.step id) State.init download).dir photo.path = some 0 ∧
    ∃ b, (run (State.step id) State.init download).files[0]? = some b ∧
      ([1, 2, 3], b) ∈ (run (State.step id) State.init download).verified ∧ id b = [1, 2, 3] := by
  have hfits : Along (State.step id) (Fits id) State.init download := by decide +kernel
  have hdir : (run (State.step id) State.init download).dir photo.path = some 0 := by decide +kernel
  exact ⟨hfits, hdir, (cache_complete id download hfits).1 photo 0 hdir⟩

/-! ## Permits -/

/-- Every permit is free or held. -/
def Permitted (s : State) : Prop :=
  s.permits + s.calls.countP Progress.holds = MAX_CONCURRENT_DOWNLOADS

theorem Permitted.goto (h : Permitted s) (hc : s.calls[c]? = some p) {t : State} {p' : Progress}
    (ht : t.calls = (s.goto c p').calls)
    (hpermits : t.permits + p'.holds.toNat = s.permits + p.holds.toNat) : Permitted t := by
  have hcount := countP_holds_goto hc p'
  rw [← ht] at hcount
  unfold Permitted at h ⊢
  omega

/-- A call takes a permit, keeps it or gives it back. -/
theorem permitted_resume (h : Permitted s) (hc : s.calls[c]? = some p) :
    Permitted (resume sha256 s c ok p) := by
  cases p with
  | start =>
    simp only [resume]
    split
    · split_ifs <;> exact h.goto hc rfl rfl
    · exact h.goto hc rfl rfl
  | acquiring =>
    rw [resume]
    split
    · exact h
    · refine h.goto hc rfl ?_
      show s.permits - 1 + 1 = s.permits + 0
      omega
  | creating r n =>
    rw [resume]
    split
    · cases hi : s.dir (r.tmp n) <;> simp only [State.create, hi] <;> exact h.goto hc rfl rfl
    · exact h.goto hc rfl rfl
  | moving r n => cases ok <;> cases hi : s.dir (r.tmp n) <;> simp only [resume, hi] <;> exact h.goto hc rfl rfl
  | rechecking | downloading | syncing => rw [resume]; split <;> exact h.goto hc rfl rfl
  | discarding | losing => cases ok <;> exact h.goto hc rfl rfl
  | numbering | checking => exact h.goto hc rfl rfl
  | returned => exact h

theorem permitted_step (h : Permitted s) (a : Action) : Permitted (s.step sha256 a) := by
  cases a with
  | call => simpa [Permitted, State.step, Progress.holds] using h
  | crash => rfl
  | write =>
    simp only [State.step]
    split
    · rename_i hc
      exact h.goto hc rfl rfl
    · exact h
  | poll c =>
    cases hc : s.calls[c]? with
    | none => simpa only [State.step, hc] using h
    | some => simpa only [State.step, hc] using permitted_resume h hc

/-- At most `MAX_CONCURRENT_DOWNLOADS` calls are past the semaphore. -/
theorem downloads_le (sha256 : Bytes → Bytes) (as : List Action) :
    (run (State.step sha256) State.init as).calls.countP Progress.holds ≤ MAX_CONCURRENT_DOWNLOADS := by
  have hinit : Permitted State.init := rfl
  have h : Permitted (run (State.step sha256) State.init as) :=
    run_inv (I := Permitted) (fun _ a hs => permitted_step hs a) hinit as
  exact h ▸ Nat.le_add_left _ _

/-! ## The counter comes round -/

/-- Call `c` takes a number. -/
def attempt (c : ℕ) : List Action :=
  [.call photoArgs, .poll c true, .poll c true, .poll c true, .poll c true]

/-- The calls from `c` on take a number each and cannot create their file. -/
def attempts (c : ℕ) : ℕ → List Action
  | 0 => []
  | k + 1 => attempt c ++ .poll c false :: attempts (c + 1) k

theorem run_attempt (sha256 : Bytes → Bytes) (hp : 0 < s.permits) (he : s.exists photo.path = false) :
    run (State.step sha256) s (attempt s.calls.length) = { s with
      calls := s.calls ++ [.creating photo s.partSeq]
      permits := s.permits - 1
      partSeq := s.partSeq + 1
      started := s.started + 1 } := by
  have hpos : s.permits ≠ 0 := Nat.pos_iff_ne_zero.1 hp
  have he' : State.exists s (Request.path ⟨[1, 2, 3], "image", some "image/png", none⟩) = false := he
  simp only [State.exists] at he he'
  simp [attempt, State.step, resume, State.goto, photoArgs, hpos, he', State.exists, photo]

theorem run_attempts (sha256 : Bytes → Bytes) (k : ℕ) (hp : 0 < s.permits)
    (he : s.exists photo.path = false) :
    run (State.step sha256) s (attempts s.calls.length k) = { s with
      calls := s.calls ++ List.replicate k (.returned none)
      partSeq := s.partSeq + UInt64.ofNat k
      started := s.started + k } := by
  induction k generalizing s with
  | zero => simp [attempts]
  | succ k ih =>
    rw [attempts, run_append, run_attempt sha256 hp he, run_cons]
    -- the file is not created, and the permit comes back
    have hfail : State.step sha256 { s with
        calls := s.calls ++ [.creating photo s.partSeq]
        permits := s.permits - 1
        partSeq := s.partSeq + 1
        started := s.started + 1 } (.poll s.calls.length false) = { s with
        calls := s.calls ++ [.returned none]
        partSeq := s.partSeq + 1
        started := s.started + 1 } := by
      have hback : s.permits - 1 + 1 = s.permits := Nat.sub_add_cancel hp
      simp [State.step, resume, State.done, State.ret, State.goto, hback]
    rw [hfail]
    have hlen : s.calls.length + 1 = (s.calls ++ [Progress.returned none]).length := by simp
    rw [hlen]
    refine (ih (s := { s with
      calls := s.calls ++ [.returned none]
      partSeq := s.partSeq + 1
      started := s.started + 1 }) hp he).trans ?_
    have hseq : s.partSeq + 1 + UInt64.ofNat k = s.partSeq + UInt64.ofNat (k + 1) := by
      rw [UInt64.ofNat_add, add_assoc, add_comm (UInt64.ofNat k)]
      rfl
    simp [replicate_succ, hseq, Nat.add_assoc, Nat.add_comm 1 k]

/-- The first call is still in flight while `k` others come and go, and another one takes a number. -/
theorem calls_attempts (sha256 : Bytes → Bytes) (k : ℕ) :
    (run (State.step sha256) State.init (attempt 0 ++ (attempts 1 k ++ attempt (k + 1)))).calls =
      .creating photo 0 :: (List.replicate k (.returned none) ++ [.creating photo (1 + UInt64.ofNat k)]) := by
  let s₁ : State := { State.init with
    calls := [.creating photo 0], permits := 2, partSeq := 1, started := 1 }
  let s₂ : State := { s₁ with
    calls := .creating photo 0 :: List.replicate k (.returned none)
    partSeq := 1 + UInt64.ofNat k
    started := 1 + k }
  have h₁ : run (State.step sha256) State.init (attempt 0) = s₁ :=
    run_attempt sha256 (by decide) rfl
  have h₂ : run (State.step sha256) s₁ (attempts 1 k) = s₂ := run_attempts sha256 k Nat.two_pos rfl
  have hlen : s₂.calls.length = k + 1 := by simp [s₂]
  have h₃ := run_attempt sha256 (s := s₂) Nat.two_pos rfl
  rw [hlen] at h₃
  rw [run_append, run_append, h₁, h₂, h₃]
  rfl

theorem getElem?_calls_attempts (sha256 : Bytes → Bytes) (k : ℕ) :
    (run (State.step sha256) State.init (attempt 0 ++ (attempts 1 k ++ attempt (k + 1)))).calls[k + 1]? =
      some (.creating photo (1 + UInt64.ofNat k)) := by
  rw [calls_attempts, getElem?_cons_succ, getElem?_append_right (by simp)]
  simp

/-- After `2 ^ 64` downloads the counter starts over: a call that is still in flight has the name that
the next one takes. -/
theorem part_number_wraps :
    ∃ as : List Action, ∀ sha256 : Bytes → Bytes, ∃ p q name,
      (run (State.step sha256) State.init as).calls[0]? = some p ∧
      (run (State.step sha256) State.init as).calls[2 ^ 64]? = some q ∧
      p.tmp = some name ∧ q.tmp = some name := by
  refine ⟨attempt 0 ++ (attempts 1 (2 ^ 64 - 1) ++ attempt (2 ^ 64 - 1 + 1)), fun sha256 => ?_⟩
  have hlast := getElem?_calls_attempts sha256 (2 ^ 64 - 1)
  have hwrap : (1 : UInt64) + UInt64.ofNat (2 ^ 64 - 1) = 0 := by decide
  rw [hwrap] at hlast
  refine ⟨.creating photo 0, .creating photo 0, photo.tmp 0, ?_, hlast, rfl, rfl⟩
  rw [calls_attempts]
  rfl

end Whatsvelte.Media
