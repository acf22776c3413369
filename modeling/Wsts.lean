import Wsts.KeyMap
import Wsts.Net
import Wsts.Traits
import Wsts.StateMachine.Signer.Basic
import Wsts.StateMachine.Signer.Process
import Wsts.StateMachine.Signer.Spec
import Wsts.StateMachine.Signer.Run
import Wsts.NatBackend
import Wsts.StateMachine.Signer.Restart
import Wsts.StateMachine.Signer.Failure
import Wsts.StateMachine.Signer.Shares
import Wsts.StateMachine.Signer.History
import Wsts.StateMachine.Signer.Bookkeeping
import Wsts.StateMachine.Signer.Signing
import Wsts.StateMachine.Signer.Delivery
import Wsts.StateMachine.Signer.Panics
import Wsts.StateMachine.Signer.Closing
import Wsts.StateMachine.Signer.Dkg
import Wsts.StateMachine.Signer.SignRound
import Wsts.StateMachine.Signer.Overtaking
