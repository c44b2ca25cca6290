import RbatisCache.Text

/-! Where a URL points to: the host and the port of its authority. -/
namespace RbatisCache.Text

/-- Where the authority starts. -/
def schemeEnd (url : List Char) : Nat := (find [':', '/', '/'] url).elim 0 (· + 3)

/-- A character that ends the authority. -/
def endsAuthority (c : Char) : Bool := c == '/' || c == '?' || c == '#'

/-- The authority that the text starts with, without user information. -/
def authority (s : List Char) : List Char :=
  (s.takeWhile fun c => !endsAuthority c).rtakeWhile fun c => c != '@'

def portText : List Char → Option (List Char)
  | ':' :: port => some port
  | _ => none

/-- The host is a literal in brackets or all that is before the first colon. -/
def hostPort (s : List Char) : List Char × Option (List Char) :=
  if s.head? = some '[' then
    (s.takeWhile (fun c => c != ']') ++ (s.dropWhile fun c => c != ']').take 1,
      portText ((s.dropWhile fun c => c != ']').drop 1))
  else (s.takeWhile fun c => c != ':', portText (s.dropWhile fun c => c != ':'))

/-- Text that neither ends an authority nor divides it. -/
def Undelimited (s : List Char) : Prop := ∀ c ∈ s, endsAuthority c = false ∧ c ≠ '@'

/-- A host with no port behind it. -/
def BareHost (s : List Char) : Prop :=
  Undelimited s ∧
    if s.head? = some '[' then (s.dropWhile fun c => c != ']').length ≤ 1 else ':' ∉ s

variable {s t host port : List Char}

-- Not by instance search, which may go through all characters.
instance : Decidable (Undelimited s) := List.decidableBAll _ s

theorem authority_undelimited (s : List Char) : Undelimited (authority s) := by
  intro c hc
  have before : c ∈ s.takeWhile fun c => !endsAuthority c :=
    (List.rtakeWhile_suffix _ _).subset hc
  have inside := List.mem_rtakeWhile_imp hc
  exact ⟨by simpa using List.mem_takeWhile_imp before, by simpa using inside⟩

/-- Undelimited text up to the end of the authority is the authority. -/
theorem authority_append (whole : Undelimited s) (ends : ∀ c ∈ t.head?, endsAuthority c = true) :
    authority (s ++ t) = s := by
  have front : ∀ c ∈ s, (!endsAuthority c) = true := fun c hc => by simp [(whole c hc).1]
  have behind : (t.takeWhile fun c => !endsAuthority c) = [] := by
    cases t with
    | nil => rfl
    | cons c t => exact List.takeWhile_cons_of_neg (by simp [ends c rfl])
  rw [authority, List.takeWhile_append_of_pos front, behind, List.append_nil,
    List.rtakeWhile_eq_self_iff]
  intro c hc
  simp [(whole c hc).2]

theorem Undelimited.authority_eq (whole : Undelimited s) : authority s = s := by
  simpa using authority_append (t := []) whole (by simp)

theorem mem_portText (h : portText s = some port) {c : Char} (hc : c ∈ port) : c ∈ s := by
  unfold portText at h
  split at h
  · obtain rfl := Option.some.inj h
    exact List.mem_cons_of_mem _ hc
  · cases h

/-- Host and port are pieces of the text. -/
theorem Undelimited.hostPort (whole : Undelimited s) : Undelimited (hostPort s).1 ∧
    ∀ port, (Text.hostPort s).2 = some port → Undelimited port := by
  unfold Text.hostPort
  split
  · constructor
    · intro c hc
      rcases List.mem_append.mp hc with hc | hc
      · exact whole c ((List.takeWhile_prefix _).subset hc)
      · exact whole c ((List.dropWhile_suffix _).subset (List.mem_of_mem_take hc))
    · intro port h c hc
      have := List.mem_of_mem_drop (mem_portText h hc)
      exact whole c ((List.dropWhile_suffix _).subset this)
  · constructor
    · intro c hc
      exact whole c ((List.takeWhile_prefix _).subset hc)
    · intro port h c hc
      exact whole c ((List.dropWhile_suffix _).subset (mem_portText h hc))

/-- The port that is read, or a default one, is undelimited. -/
theorem undelimited_port (s : List Char) (default : Undelimited t) :
    Undelimited ((hostPort (authority s)).2.getD t) := by
  cases h : (hostPort (authority s)).2 with
  | none => exact default
  | some port => exact (authority_undelimited s).hostPort.2 port h

/-! ### Text that is all host, and text with a port -/

theorem hostPort_fst_eq_iff : (hostPort s).1 = s ↔
    if s.head? = some '[' then (s.dropWhile fun c => c != ']').length ≤ 1 else ':' ∉ s := by
  unfold hostPort
  split
  · have whole := List.takeWhile_append_dropWhile (p := fun c => c != ']') (l := s)
    constructor
    · intro h
      rw [← List.append_cancel_left (h.trans whole.symm)]
      exact List.length_take_le _ _
    · intro h
      rw [List.take_of_length_le h]
      exact whole
  · rw [List.takeWhile_eq_self_iff]
    constructor
    · intro h colon
      exact absurd (h ':' colon) (by decide)
    · intro h c hc
      rw [bne_iff_ne]
      rintro rfl
      exact h hc

theorem hostPort_snd_eq_none (h : (hostPort s).1 = s) : (hostPort s).2 = none := by
  have bare := hostPort_fst_eq_iff.mp h
  unfold hostPort
  split
  · next bracket =>
    rw [if_pos bracket] at bare
    change portText (List.drop 1 _) = none
    rw [List.drop_eq_nil_of_le bare]
    rfl
  · next bracket =>
    rw [if_neg bracket] at bare
    have nothing : (s.dropWhile fun c => c != ':') = [] := by
      rw [List.dropWhile_eq_nil_iff]
      intro c hc
      rw [bne_iff_ne]
      rintro rfl
      exact bare hc
    change portText (s.dropWhile fun c => c != ':') = none
    rw [nothing]
    rfl

theorem hostPort_append (bracket : host.head? ≠ some '[') (colon : ':' ∉ host) :
    hostPort (host ++ ':' :: port) = (host, some port) := by
  have before : ∀ c ∈ host, (c != ':') = true := by
    intro c hc
    rw [bne_iff_ne]
    rintro rfl
    exact colon hc
  have start : (host ++ ':' :: port).head? ≠ some '[' := by
    cases host with
    | nil => simp
    | cons c host => exact bracket
  rw [hostPort, if_neg start, List.takeWhile_append_of_pos before,
    List.dropWhile_append_of_pos before,
    List.takeWhile_cons_of_neg (p := fun c => c != ':') (by simp),
    List.dropWhile_cons_of_neg (p := fun c => c != ':') (by simp), List.append_nil]
  rfl

/-- What is read as a host is all of the text exactly if that is a bare host. -/
theorem hostPort_authority_fst : (hostPort (authority s)).1 = s ↔ BareHost s := by
  constructor
  · intro h
    have whole : Undelimited s := by
      rw [← h]
      exact (authority_undelimited s).hostPort.1
    rw [whole.authority_eq] at h
    exact ⟨whole, hostPort_fst_eq_iff.mp h⟩
  · rintro ⟨whole, bare⟩
    rw [whole.authority_eq]
    exact hostPort_fst_eq_iff.mpr bare

theorem BareHost.no_port (bare : BareHost s) : (hostPort (authority s)).2 = none := by
  rw [bare.1.authority_eq]
  exact hostPort_snd_eq_none (hostPort_fst_eq_iff.mpr bare.2)

end RbatisCache.Text
