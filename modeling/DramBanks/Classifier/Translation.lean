import DramBanks.Classifier
/-!
# Physical addresses of a grouping

    Masks are searched among physical addresses.  A translation may fail,
    and it may keep a state; the first failure ends it.
-/

namespace DramBanks.Classifier

variable {σ ε τ : Type}

def translateAll (translate : Address → τ → Except ε Address × τ) :
    List Address → τ → Except ε (List Address) × τ
  | [], t => (.ok [], t)
  | a :: rest, t =>
      match translate a t with
      | (.error e, t) => (.error e, t)
      | (.ok p, t) =>
          let (more, t) := translateAll translate rest t
          (more.map (p :: ·), t)

def translateGroups (translate : Address → τ → Except ε Address × τ) :
    List Group → τ → Except ε (List (List Address)) × τ
  | [], t => (.ok [], t)
  | g :: rest, t =>
      match translateAll translate g.members t with
      | (.error e, t) => (.error e, t)
      | (.ok members, t) =>
          let (more, t) := translateGroups translate rest t
          (more.map (members :: ·), t)

/-- The grouping in physical addresses. -/
def physicalAddresses (translate : Address → τ → Except ε Address × τ) (c : Classifier σ)
    (t : τ) : Except ε (List (List Address)) × τ :=
  translateGroups translate c.groups t

def addresses (c : Classifier σ) : List (List Address) := c.groups.map Group.members

end DramBanks.Classifier
