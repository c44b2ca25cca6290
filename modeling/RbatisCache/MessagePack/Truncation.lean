import RbatisCache.MessagePack.Message

/-! Readers do not look beyond what they read. So what has been cut off is not read as something else. -/
namespace RbatisCache.MessagePack

namespace Reader
variable {α β : Type} {p : Reader α} {q : Reader β} {f : α → Reader β}

/-- What is read does not depend on what follows, and neither does an error but the end of the input. -/
structure Local (p : Reader α) : Prop where
  ok : ∀ bytes a rest, p bytes = .ok (a, rest) → ∀ more, p (bytes ++ more) = .ok (a, rest ++ more)
  error : ∀ bytes e, p bytes = .error e → e ≠ .eof → ∀ more, p (bytes ++ more) = .error e

theorem local_ret (a : α) : (ret a).Local where
  ok bytes b rest h more := by
    cases h
    rfl
  error := nofun

theorem local_fail (e : DecodeError) : (fail e : Reader α).Local where
  ok := nofun
  error bytes e h _ more := by
    cases h
    rfl

theorem Local.bind (hp : p.Local) (hf : ∀ a, (f a).Local) : (p.bind f).Local where
  ok bytes b rest h more := by
    obtain ⟨a, between, first, second⟩ := bind_ok h
    rw [Reader.bind, hp.ok _ _ _ first more]
    exact (hf a).ok _ _ _ second more
  error bytes e h other more := by
    cases first : p bytes with
    | error e' =>
      rw [Reader.bind, first] at h
      cases h
      rw [Reader.bind, hp.error _ _ first other more]
    | ok out =>
      obtain ⟨a, between⟩ := out
      rw [Reader.bind, first] at h
      rw [Reader.bind, hp.ok _ _ _ first more]
      exact (hf a).error _ _ h other more

theorem Local.map {g : α → β} (hp : p.Local) : (p.map g).Local := hp.bind fun _ => local_ret _

theorem local_take (n : Nat) : (take n).Local where
  ok bytes a rest h more := by
    unfold take at h ⊢
    split at h
    · next enough =>
      cases h
      have longer : n ≤ (bytes ++ more).length := by
        rw [List.length_append]
        omega
      rw [if_pos longer, List.take_append_of_le_length enough, List.drop_append_of_le_length enough]
    · cases h
  error bytes e h other more := by
    unfold take at h
    split at h
    · cases h
    · cases h
      exact absurd rfl other

theorem Local.many (hp : p.Local) (n : Nat) : (p.many n).Local := by
  induction n with
  | zero => exact local_ret []
  | succ n ih => exact hp.bind fun a => ih.bind fun as => local_ret (a :: as)

theorem Local.pair (hp : p.Local) (hq : q.Local) : (pair p q).Local := hp.bind fun _ => hq.map

/-- What is read in front of anything ends too early when its end is missing. -/
theorem Local.eof {bytes cut : List UInt8} {a : α} (hp : p.Local) (reads : p.Reads bytes a)
    (before : cut <+: bytes) (missing : cut ≠ bytes) : p cut = .error .eof := by
  obtain ⟨more, rfl⟩ := before
  have whole := reads []
  rw [List.append_nil] at whole
  cases h : p cut with
  | error e =>
    by_contra other
    rw [hp.error _ _ h (fun same => other (congrArg Except.error same)) more] at whole
    cases whole
  | ok out =>
    obtain ⟨b, rest⟩ := out
    rw [hp.ok _ _ _ h more] at whole
    have nothing : rest ++ more = [] := congrArg Prod.snd (Except.ok.inj whole)
    rw [(List.append_eq_nil_iff.mp nothing).2, List.append_nil] at missing
    exact absurd rfl missing

end Reader

theorem local_number {α : Type} (w : Nat) (f : Nat → α) : (number w f).Local :=
  (Reader.local_take w).map

namespace Head

theorem local_readForm (marker : UInt8) : (readForm marker).Local := by
  unfold readForm
  split
  all_goals first
    | exact local_number _ _
    | exact Reader.local_ret _
    | exact Reader.local_fail _

theorem local_readMarker (marker : UInt8) : (readMarker marker).Local := by
  unfold readMarker
  split
  · exact Reader.local_ret _
  · split
    · exact Reader.local_ret _
    · split
      · exact Reader.local_ret _
      · split
        · exact Reader.local_ret _
        · split
          · exact Reader.local_ret _
          · exact local_readForm marker

theorem local_read : read.Local where
  ok bytes a rest h more := by
    cases bytes with
    | nil => cases h
    | cons marker bytes => exact (local_readMarker marker).ok _ _ _ h more
  error bytes e h other more := by
    cases bytes with
    | nil =>
      cases h
      exact absurd rfl other
    | cons marker bytes => exact (local_readMarker marker).error _ _ h other more

end Head

namespace Message

theorem local_ofUtf8 (bytes : List UInt8) : (ofUtf8 bytes).Local := by
  unfold ofUtf8
  split
  · exact Reader.local_ret _
  · exact Reader.local_fail _

theorem local_read (limit : Nat) : (read limit).Local := by
  induction limit with
  | zero => exact Reader.local_fail _
  | succ limit ih =>
    refine Head.local_read.bind fun head => ?_
    cases head with
    | str n => exact (Reader.local_take n).bind local_ofUtf8
    | bin n => exact (Reader.local_take n).map
    | array n => exact (ih.many n).map
    | map n => exact ((ih.pair ih).many n).map
    | _ => exact Reader.local_ret _

end Message
end RbatisCache.MessagePack
