import WebcryptoMls.UnmergedLeaves
import WebcryptoMls.ParentHashRuns
import WebcryptoMls.RatchetRuns
import WebcryptoMls.AttachmentRange
import WebcryptoMls.RatchetWindow
import WebcryptoMls.HostileTrees
import WebcryptoMls.RetainedEpochs
import WebcryptoMls.UsableKeys
import WebcryptoMls.PathRecipients
import WebcryptoMls.Resolutions
import WebcryptoMls.ChangeOrder
import WebcryptoMls.LeafSummaries
import WebcryptoMls.TreeExtension
import WebcryptoMls.CustomCredentials
import WebcryptoMls.MessagePadding
import WebcryptoMls.Binary64
import WebcryptoMls.LayoutNumbers
import WebcryptoMls.ByteRanges
import WebcryptoMls.LayoutRegions
import WebcryptoMls.RangePlans
import WebcryptoMls.AttachmentReferences
import WebcryptoMls.SealKeys
import WebcryptoMls.DistinctKeys
import WebcryptoMls.RatchetRoots
import WebcryptoMls.GroupRequirements
import WebcryptoMls.RemovedMembers
import WebcryptoMls.CreateMessage
import WebcryptoMls.Lifecycle
import WebcryptoMls.EpochRuns
import WebcryptoMls.KeyConfirmation
import WebcryptoMls.HiddenState
import WebcryptoMls.TreeCache
import WebcryptoMls.TreeWidths
import WebcryptoMls.TreeCacheAgreement
import WebcryptoMls.TreeCacheRuns
import WebcryptoMls.MessageDelivery
import WebcryptoMls.EpochMembers
import WebcryptoMls.EpochNetwork
import WebcryptoMls.WelcomeSecrets
import WebcryptoMls.WelcomePaths
import WebcryptoMls.WelcomedMembers
import WebcryptoMls.HeldKeys
import WebcryptoMls.ReceivedKeys
import WebcryptoMls.HeldKeyRuns
import WebcryptoMls.ReceivedCommits
