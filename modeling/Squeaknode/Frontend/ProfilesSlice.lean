/-
The slice `profiles` of the frontend's store: the profile that is shown, and the lists of the signing and of
the contact profiles. Each status tracks the requests of one thunk; no rejection is handled, so that none
takes a status back (`table`).
-/
import Squeaknode.Frontend.SqueaksSlice
import Squeaknode.Interleave.InFlight

namespace Squeaknode

namespace ProfilesSlice

open Interleave
open SqueaksSlice (RequestStatus)
open SqueakAdminPb2 (SqueakProfile)

structure State where
  currentProfileStatus : RequestStatus
  currentProfile : Option SqueakProfile
  signingProfilesStatus : RequestStatus
  signingProfiles : List SqueakProfile
  contactProfilesStatus : RequestStatus
  contactProfiles : List SqueakProfile
  createContactProfileStatus : RequestStatus
  createSigningProfileStatus : RequestStatus
  importSigningProfileStatus : RequestStatus
  exportPrivateKeyStatus : RequestStatus

def initialState : State where
  currentProfileStatus := .idle
  currentProfile := none
  signingProfilesStatus := .idle
  signingProfiles := []
  contactProfilesStatus := .idle
  contactProfiles := []
  createContactProfileStatus := .idle
  createSigningProfileStatus := .idle
  importSigningProfileStatus := .idle
  exportPrivateKeyStatus := .idle

/-! ## Reducers -/

def clearAll (s : State) : State := { s with currentProfileStatus := .idle, currentProfile := none }
def clearSigningProfiles (s : State) : State := { s with signingProfilesStatus := .idle, signingProfiles := [] }
def clearContactProfiles (s : State) : State := { s with contactProfilesStatus := .idle, contactProfiles := [] }

def fetchProfilePending (s : State) : State := { s with currentProfileStatus := .loading }

/-- The server has no profile for a public key that it does not know. -/
def fetchProfileFulfilled (newProfile : Option SqueakProfile) (s : State) : State :=
  { s with currentProfile := newProfile, currentProfileStatus := .idle }

/-- The first profile with the public key is replaced. -/
def updatedProfileInArray (newProfile : SqueakProfile) : List SqueakProfile → List SqueakProfile
  | [] => []
  | profile :: rest =>
    if profile.pubkey = newProfile.pubkey then newProfile :: rest
    else profile :: updatedProfileInArray newProfile rest

/-- The profile takes the place of the one with its public key, wherever that is shown. Without a profile in the
answer there is nothing to replace, and a reducer that asks for its public key raises, which leaves the store as
it was. -/
def replaceProfile : Option SqueakProfile → State → State
  | some newProfile, s =>
    { s with
      currentProfile := s.currentProfile.map fun profile =>
        if profile.pubkey = newProfile.pubkey then newProfile else profile
      signingProfiles := updatedProfileInArray newProfile s.signingProfiles
      contactProfiles := updatedProfileInArray newProfile s.contactProfiles }
  | none, s => s

def setFollowProfileFulfilled : Option SqueakProfile → State → State := replaceProfile
def setUnfollowProfileFulfilled : Option SqueakProfile → State → State := replaceProfile
def setRenameProfileFulfilled : Option SqueakProfile → State → State := replaceProfile
def setProfileImageFulfilled : Option SqueakProfile → State → State := replaceProfile
def setClearProfileImageFulfilled : Option SqueakProfile → State → State := replaceProfile

/-- The lists keep a profile that was deleted. -/
def setDeleteProfileFulfilled (deletedProfileId : Int) (s : State) : State :=
  { s with currentProfile := s.currentProfile.filter fun profile => profile.profileId != deletedProfileId }

def fetchSigningProfilesPending (s : State) : State := { s with signingProfilesStatus := .loading }

def fetchSigningProfilesFulfilled (newSigningProfiles : List SqueakProfile) (s : State) : State :=
  { s with signingProfiles := newSigningProfiles, signingProfilesStatus := .idle }

def fetchContactProfilesPending (s : State) : State := { s with contactProfilesStatus := .loading }

def fetchContactProfilesFulfilled (newContactProfiles : List SqueakProfile) (s : State) : State :=
  { s with contactProfiles := newContactProfiles, contactProfilesStatus := .idle }

def setCreateContactProfilePending (s : State) : State := { s with createContactProfileStatus := .loading }
def setCreateContactProfileFulfilled (s : State) : State := { s with createContactProfileStatus := .idle }

def setCreateSigningProfilePending (s : State) : State := { s with createSigningProfileStatus := .loading }
def setCreateSigningProfileFulfilled (s : State) : State := { s with createSigningProfileStatus := .idle }

def setImportSigningProfilePending (s : State) : State := { s with importSigningProfileStatus := .loading }
def setImportSigningProfileFulfilled (s : State) : State := { s with importSigningProfileStatus := .idle }

def getProfilePrivateKeyPending (s : State) : State := { s with exportPrivateKeyStatus := .loading }
def getProfilePrivateKeyFulfilled (s : State) : State := { s with exportPrivateKeyStatus := .idle }

/-! ## The thunks -/

/-- The thunks of the slice. -/
inductive Thunk where
  | fetchProfile
  | setFollowProfile
  | setUnfollowProfile
  | setDeleteProfile
  | setRenameProfile
  | setProfileImage
  | setClearProfileImage
  | fetchSigningProfiles
  | fetchContactProfiles
  | setCreateContactProfile
  | setCreateSigningProfile
  | setImportSigningProfile
  | getProfilePrivateKey
  deriving DecidableEq

/-- A fulfilled action, as far as its reducer reads its payload and its argument. -/
inductive Fulfilled where
  | fetchProfile (newProfile : Option SqueakProfile)
  | setFollowProfile (newProfile : Option SqueakProfile)
  | setUnfollowProfile (newProfile : Option SqueakProfile)
  | setDeleteProfile (deletedProfileId : Int)
  | setRenameProfile (newProfile : Option SqueakProfile)
  | setProfileImage (newProfile : Option SqueakProfile)
  | setClearProfileImage (newProfile : Option SqueakProfile)
  | fetchSigningProfiles (newSigningProfiles : List SqueakProfile)
  | fetchContactProfiles (newContactProfiles : List SqueakProfile)
  | setCreateContactProfile
  | setCreateSigningProfile
  | setImportSigningProfile
  | getProfilePrivateKey

/-- The thunk of a fulfilled action. -/
def Fulfilled.thunk : Fulfilled → Thunk
  | .fetchProfile _ => .fetchProfile
  | .setFollowProfile _ => .setFollowProfile
  | .setUnfollowProfile _ => .setUnfollowProfile
  | .setDeleteProfile _ => .setDeleteProfile
  | .setRenameProfile _ => .setRenameProfile
  | .setProfileImage _ => .setProfileImage
  | .setClearProfileImage _ => .setClearProfileImage
  | .fetchSigningProfiles _ => .fetchSigningProfiles
  | .fetchContactProfiles _ => .fetchContactProfiles
  | .setCreateContactProfile => .setCreateContactProfile
  | .setCreateSigningProfile => .setCreateSigningProfile
  | .setImportSigningProfile => .setImportSigningProfile
  | .getProfilePrivateKey => .getProfilePrivateKey

/-- The reducers of the pending actions. -/
def pending : Thunk → State → State
  | .fetchProfile => fetchProfilePending
  | .fetchSigningProfiles => fetchSigningProfilesPending
  | .fetchContactProfiles => fetchContactProfilesPending
  | .setCreateContactProfile => setCreateContactProfilePending
  | .setCreateSigningProfile => setCreateSigningProfilePending
  | .setImportSigningProfile => setImportSigningProfilePending
  | .getProfilePrivateKey => getProfilePrivateKeyPending
  | _ => id

/-- The reducers of the fulfilled actions. -/
def fulfilled : Fulfilled → State → State
  | .fetchProfile newProfile => fetchProfileFulfilled newProfile
  | .setFollowProfile newProfile => setFollowProfileFulfilled newProfile
  | .setUnfollowProfile newProfile => setUnfollowProfileFulfilled newProfile
  | .setDeleteProfile deletedProfileId => setDeleteProfileFulfilled deletedProfileId
  | .setRenameProfile newProfile => setRenameProfileFulfilled newProfile
  | .setProfileImage newProfile => setProfileImageFulfilled newProfile
  | .setClearProfileImage newProfile => setClearProfileImageFulfilled newProfile
  | .fetchSigningProfiles newSigningProfiles => fetchSigningProfilesFulfilled newSigningProfiles
  | .fetchContactProfiles newContactProfiles => fetchContactProfilesFulfilled newContactProfiles
  | .setCreateContactProfile => setCreateContactProfileFulfilled
  | .setCreateSigningProfile => setCreateSigningProfileFulfilled
  | .setImportSigningProfile => setImportSigningProfileFulfilled
  | .getProfilePrivateKey => getProfilePrivateKeyFulfilled

/-- The slice has no case for a rejected action. -/
def rejected (_ : Thunk) : State → State := id

/-- The clearing actions of the slice. -/
inductive Clear where
  | clearAll
  | clearSigningProfiles
  | clearContactProfiles

/-- The reducers of the clearing actions. -/
def clear : Clear → State → State
  | .clearAll => clearAll
  | .clearSigningProfiles => clearSigningProfiles
  | .clearContactProfiles => clearContactProfiles

/-! ## The statuses -/

/-- The status fields of the slice. -/
inductive Status where
  | currentProfile
  | signingProfiles
  | contactProfiles
  | createContactProfile
  | createSigningProfile
  | importSigningProfile
  | exportPrivateKey
  deriving DecidableEq

/-- The value of a status field. -/
def State.status (s : State) : Status → RequestStatus
  | .currentProfile => s.currentProfileStatus
  | .signingProfiles => s.signingProfilesStatus
  | .contactProfiles => s.contactProfilesStatus
  | .createContactProfile => s.createContactProfileStatus
  | .createSigningProfile => s.createSigningProfileStatus
  | .importSigningProfile => s.importSigningProfileStatus
  | .exportPrivateKey => s.exportPrivateKeyStatus

/-- The status that is set for the thunk. -/
def Thunk.status : Thunk → Option Status
  | .fetchProfile => some .currentProfile
  | .fetchSigningProfiles => some .signingProfiles
  | .fetchContactProfiles => some .contactProfiles
  | .setCreateContactProfile => some .createContactProfile
  | .setCreateSigningProfile => some .createSigningProfile
  | .setImportSigningProfile => some .importSigningProfile
  | .getProfilePrivateKey => some .exportPrivateKey
  | _ => none

/-- The thunk whose requests the status tracks. -/
def Status.thunk : Status → Thunk
  | .currentProfile => .fetchProfile
  | .signingProfiles => .fetchSigningProfiles
  | .contactProfiles => .fetchContactProfiles
  | .createContactProfile => .setCreateContactProfile
  | .createSigningProfile => .setCreateSigningProfile
  | .importSigningProfile => .setImportSigningProfile
  | .exportPrivateKey => .getProfilePrivateKey

/-- The status field that a clearing action resets. -/
def Clear.status : Clear → Status
  | .clearAll => .currentProfile
  | .clearSigningProfiles => .signingProfiles
  | .clearContactProfiles => .contactProfiles

theorem status_pending (f : Status) (t : Thunk) (s : State) :
    (pending t s).status f = if t.status = some f then .loading else s.status f := by
  cases t <;> cases f <;> rfl

theorem status_replaceProfile (f : Status) (newProfile : Option SqueakProfile) (s : State) :
    (replaceProfile newProfile s).status f = s.status f := by
  cases newProfile <;> cases f <;> rfl

theorem status_fulfilled (f : Status) (x : Fulfilled) (s : State) :
    (fulfilled x s).status f = if x.thunk.status = some f then .idle else s.status f := by
  cases x with
  | setFollowProfile newProfile => exact status_replaceProfile f newProfile s
  | setUnfollowProfile newProfile => exact status_replaceProfile f newProfile s
  | setRenameProfile newProfile => exact status_replaceProfile f newProfile s
  | setProfileImage newProfile => exact status_replaceProfile f newProfile s
  | setClearProfileImage newProfile => exact status_replaceProfile f newProfile s
  | _ => cases f <;> rfl

theorem status_clear (f : Status) (c : Clear) (s : State) :
    (clear c s).status f = if c.status = f then .idle else s.status f := by
  cases c <;> cases f <;> rfl

theorem status_thunk (f : Status) : f.thunk.status = some f := by
  cases f <;> rfl

theorem status_eq_some {t : Thunk} {f : Status} (h : t.status = some f) : t = f.thunk := by
  cases t <;> cases h <;> rfl

def table : InFlight.Table where
  State := State
  Thunk := Thunk
  Answer := Fulfilled
  Clear := Clear
  Flag := Status
  initialState := initialState
  thunk := Fulfilled.thunk
  pending := pending
  fulfilled := fulfilled
  rejected := rejected
  clear := clear
  isLoading f s := (s.status f).isLoading
  tracks := Thunk.status
  settles _ _ := true
  resets _ := false
  clears c := some c.status
  tracks_inj _ _ _ h h' := (status_eq_some h).trans (status_eq_some h').symm
  isLoading_initial f := by cases f <;> rfl
  isLoading_pending f t s := RequestStatus.isLoading_ite (status_pending f t s)
  isLoading_fulfilled f x s := by
    simp only [and_true]
    exact RequestStatus.isLoading_ite (status_fulfilled f x s)
  isLoading_rejected f t s := by
    simp only [Bool.false_eq_true, and_false, if_false]
    rfl
  isLoading_clear f c s := by
    simp only [Option.some.injEq]
    exact RequestStatus.isLoading_ite (status_clear f c s)

end ProfilesSlice

end Squeaknode
