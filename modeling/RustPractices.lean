import RustPractices.Channel.Disconnection
import RustPractices.Channel.MpscBoundedCached.Delivery
import RustPractices.Channel.MpscBoundedCached.Storing
import RustPractices.Channel.SpscBounded
import RustPractices.Channel.SpscBoundedCached
import RustPractices.Consensus.Bank
import RustPractices.Consensus.Disruption
import RustPractices.Consensus.Offices
import RustPractices.Groupchat.AsyncSession
import RustPractices.Groupchat.AsyncWriting
import RustPractices.Groupchat.BrokerStreams
import RustPractices.Groupchat.Conversation
import RustPractices.Groupchat.Malformed
import RustPractices.Groupchat.Session
import RustPractices.Groupchat.ThreadServer
import RustPractices.Recovery.BitmapScan
import RustPractices.Recovery.BlockLayout
import RustPractices.Recovery.Carving
import RustPractices.Recovery.Corruption
import RustPractices.Recovery.Division
